-- Products and powers of gates with values, which need not be gates or exponents at all.
import QuantumGates.Datum.Basic

namespace QuantumGates

/-- The product of two values that must be gates on the same qubit; the right one acts first. -/
def Datum.multiply (a b : Datum) : Except (Fault Float) (Operation (Param Float)) :=
  match a, b with
  | operation x, operation y => x.multiply y
  | operation x, _ =>
    .error (.notSingleQubit (if x.singleQubit?.isSome then b.kind else x.valueKind))
  | _, _ => .error (.notSingleQubit a.kind)

namespace Operation

/-- The product of a gate and a value, for gates on one qubit only. -/
def times (op : Operation (Param Float)) (d : Datum) :
    Except (Fault Float) (Operation (Param Float)) :=
  match d with
  | .operation x =>
    if op.singleQubit?.isSome && x.singleQubit?.isSome then op.multiply x else .error .wrongType
  | _ => .error .wrongType

/-- An operation to a power. That it is a rotation is asked before the exponent is looked at. -/
def powerBy (op : Operation (Param Float)) (exponent : Datum) :
    Except (Fault Float) (Operation (Param Float)) :=
  if op.kind.isRotation then do op.power (← exponent.toParam) else .error (.noPower op.valueKind)

/-- A rotation with its angle multiplied. -/
def scaledBy (op : Operation (Param Float)) (factor : Datum) :
    Except (Fault Float) (Operation (Param Float)) :=
  if op.kind.isRotation then op.powerBy factor else .error .noAttribute

/-- The canonical values of an operation that must have them. -/
def canonicalValues (op : Operation (Param Float)) :
    Except (Fault Float) (Canonical (Param Float)) :=
  op.canonical?.getD (.error .noAttribute)

/-- An operation as the general gate on one qubit, which it must be equal to. -/
def general (op : Operation (Param Float)) : Except (Fault Float) (Operation (Param Float)) :=
  op.toGeneral?.getD (.error .noAttribute)

end Operation

end QuantumGates
