-- Values as callers hand them over, before it is known what they are meant for. Each part of
-- the library takes from such a value what it can use and refuses the rest by its kind; nothing
-- here decides what a value means to a gate.
import QuantumGates.Bindings
import QuantumGates.Circuit.Basic
import QuantumGates.Gate.Product

namespace QuantumGates

/-- A value of any sort. Members of a set and keys of a mapping stand in the order in which
they were given. -/
inductive Datum
  | nothing
  | boolean (b : Bool)
  | integer (n : Int)
  | number (x : Float)
  | complex (re im : Float)
  | text (s : String)
  | list (items : List Datum)
  | tuple (items : List Datum)
  | set (items : List Datum)
  | fixedSet (items : List Datum)
  | mapping (entries : List (Datum × Datum))
  | parameter (p : Param Float)
  | bindings (b : Bindings Float)
  | operation (op : Operation (Param Float))
  | circuit (c : Circuit Float)
  | involved (i : Involved)

namespace Datum

/-- What a value is to messages. -/
def kind : Datum → ValueKind
  | nothing => .nothing
  | boolean _ => .boolean
  | integer _ => .integer
  | number _ => .number
  | complex _ _ => .complex
  | text _ => .text
  | list _ => .list
  | tuple _ => .tuple
  | set _ => .set
  | fixedSet _ => .fixedSet
  | mapping _ => .mapping
  | parameter _ => .parameter
  | bindings _ => .bindings
  | operation op => op.valueKind
  | circuit _ => .circuit
  | involved _ => .involved

/-! ## Values as collections -/

/-- The members of a value, if it has members: the characters of a text, the keys of a mapping,
the operations of a circuit. -/
def items? : Datum → Option (List Datum)
  | text s => some (s.toList.map fun c => text (String.ofList [c]))
  | list xs => some xs
  | tuple xs => some xs
  | set xs => some xs
  | fixedSet xs => some xs
  | mapping es => some (es.map (·.1))
  | circuit c => some (c.map operation)
  | _ => none

/-- The members of a value that must have some. -/
def items (d : Datum) : Except (Fault Float) (List Datum) :=
  match d.items? with
  | some xs => .ok xs
  | none => .error .wrongType

/-- The entries of a mapping. -/
def entries? : Datum → Option (List (Datum × Datum))
  | mapping es => some es
  | _ => none

/-! ## Values as truths and numbers -/

/-- Whether a value counts as true: all do but nought and what is empty. -/
def isTrue : Datum → Bool
  | nothing => false
  | boolean b => b
  | integer n => n != 0
  | number x => !Double.isZero x
  | complex x y => !(Double.isZero x && Double.isZero y)
  | d =>
    match d.items? with
    | some xs => !xs.isEmpty
    | none => true

/-- A value as a whole number. -/
def index? : Datum → Option Int
  | boolean b => some (if b then 1 else 0)
  | integer n => some n
  | _ => none

/-- A value that must be a whole number. -/
def index (d : Datum) : Except (Fault Float) Int :=
  match d.index? with
  | some n => .ok n
  | none => .error .wrongType

/-- A value as a qubit. -/
def qubit (d : Datum) : Except (Fault Float) Nat := do
  let n ← d.index
  if n < 0 then throw (.negativeQubit n)
  return n.toNat

/-- The double nearest to a whole number, if there is one. -/
def doubleOfInt (n : Int) : Except (Fault Float) Float :=
  let x := (⟨n, 0⟩ : BigFloat).toFloat
  if x.isInf then .error .tooLarge else .ok x

/-- A real number as a double: nothing for values of another sort. -/
def real? : Datum → Option (Except (Fault Float) Float)
  | boolean b => some (.ok (if b then 1.0 else 0.0))
  | integer n => some (doubleOfInt n)
  | number x => some (.ok x)
  | _ => none

/-- A value as a parameter: nothing for values that stand for no number. -/
def parameter? : Datum → Option (Except (Fault Float) (Param Float))
  | parameter p => some (.ok p)
  | text s => some (.ok (.expression s))
  | d => d.real?.map fun x => x.map Param.literal

/-- A value that a parameter can be made from. -/
def toParam (d : Datum) : Except (Fault Float) (Param Float) :=
  d.parameter?.getD (.error (.noParameter d.kind))

/-- A value as an operand of arithmetic. -/
def operand (d : Datum) : Except (Fault Float) (Param Float) :=
  d.parameter?.getD (.error .wrongType)

/-- A value as the abscissa of a point whose angle is asked for. -/
def angle (d : Datum) : Except (Fault Float) (Param Float) :=
  d.parameter?.getD (.error .angleArgument)

/-- A value as a double. Texts are read, and parameters evaluated without variables. -/
def toDouble (d : Datum) : Except (Fault Float) Float :=
  match d with
  | text s =>
    match readFloat? s with
    | some x => .ok x
    | none => .error .malformedNumber
  | parameter p => p.value evaluateClosed
  | _ => d.real?.getD (.error .wrongType)

end Datum

end QuantumGates
