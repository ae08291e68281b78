-- Circuits built from values and taken apart by places. Appending several values goes one by
-- one: those before the first that is no operation are in the circuit when the rest is refused.
-- Places count from the front, or from the end when negative.
import QuantumGates.Circuit.Composite
import QuantumGates.Datum.Basic

namespace QuantumGates

/-! ## Places -/

/-- The place that an index means among `n` members. -/
def placeOf? (n : Nat) (i : Int) : Option Nat :=
  let k := if i < 0 then i + n else i
  if 0 ≤ k ∧ k < n then some k.toNat else none

/-- The bound of a range of places that an index means: at least `low` and at most `high`. -/
def boundOf (n : Nat) (low high : Int) (i : Int) : Int :=
  max low (min high (if i < 0 then i + n else i))

/-- The places from `a` on in steps, as long as they lie before `b` in their direction. -/
def stepsFrom (a b step : Int) : List Nat :=
  let distance := if 0 < step then b - a else a - b
  let count := if 0 < distance then (distance - 1) / step.natAbs + 1 else 0
  (List.range count.toNat).map fun (k : Nat) => (a + k * step).toNat

/-- The places from one bound to another in steps, a bound left out being the end of the range
in its direction. -/
def placesOf (n : Nat) (start stop : Option Int) (step : Int) : List Nat :=
  if 0 < step then
    let bound (i : Int) := boundOf n 0 n i
    stepsFrom ((start.map bound).getD 0) ((stop.map bound).getD n) step
  else
    let bound (i : Int) := boundOf n (-1) (n - 1) i
    stepsFrom ((start.map bound).getD (n - 1)) ((stop.map bound).getD (-1)) step

/-- A bound of a range, which may be left out. -/
def Datum.bound (d : Datum) : Except (Fault Float) (Option Int) :=
  match d with
  | .nothing => .ok none
  | _ => do return some (← d.index)

namespace Circuit

/-! ## Building -/

/-- A circuit with one more operation. -/
def append (c : Circuit Float) (d : Datum) : Except (Fault Float) (Circuit Float) :=
  match d with
  | .operation op => .ok (c ++ [op])
  | _ => .error (.notAnOperation d.kind)

/-- A circuit with more operations, and why the rest of the values was refused. -/
def appendAll (c : Circuit Float) : List Datum → Circuit Float × Option (Fault Float)
  | [] => (c, none)
  | d :: ds =>
    match c.append d with
    | .ok c' => appendAll c' ds
    | .error fault => (c, some fault)

/-- A circuit extended by an operation, a circuit, or a list of operations. -/
def extend (c : Circuit Float) (d : Datum) : Circuit Float × Option (Fault Float) :=
  match d with
  | .operation op => (c ++ [op], none)
  | .circuit ops => (c ++ ops, none)
  | .list ds | .tuple ds => c.appendAll ds
  | _ => (c, some .wrongType)

/-- What an extension gives where nothing may be refused. -/
def whole : Circuit Float × Option (Fault Float) → Except (Fault Float) (Circuit Float)
  | (c, none) => .ok c
  | (_, some fault) => .error fault

/-- The sum of a circuit and a value. -/
def plus (c : Circuit Float) (d : Datum) : Except (Fault Float) (Circuit Float) :=
  whole (c.extend d)

/-- The circuit of the members of a value. -/
def ofDatum (d : Datum) : Except (Fault Float) (Circuit Float) := do
  whole (appendAll [] (← d.items))

/-! ## Parts -/

/-- The operation at a place. -/
def operationAt (ops : Circuit Float) (place : Datum) :
    Except (Fault Float) (Operation (Param Float)) := do
  match (placeOf? ops.length (← place.index)).bind (ops[·]?) with
  | some op => return op
  | none => throw .outOfBounds

/-- The operations from one bound to another in steps. -/
def slice (ops : Circuit Float) (start stop step : Datum) :
    Except (Fault Float) (Circuit Float) := do
  let step := (← step.bound).getD 1
  if step = 0 then throw .wrongValue
  let start ← start.bound
  let stop ← stop.bound
  return (placesOf ops.length start stop step).filterMap (ops[·]?)

end Circuit

namespace Operation

/-- The equivalent circuit of an operation that must have one. -/
def expanded (op : Operation (Param Float)) : Except (Fault Float) (Circuit Float) :=
  op.circuit?.getD (.error .noAttribute)

end Operation

end QuantumGates
