-- The builders of circuits on values. A builder asks for the number of its qubits first; the
-- qubits themselves are read in the order in which its gates touch them, and a phase that is
-- divided up is read before any of them.
import QuantumGates.Circuit.Composite
import QuantumGates.Datum.Basic

namespace QuantumGates

namespace Datum

/-- Values as qubits, the first refusal being that of the first one in `order`. -/
def qubitsBy (order values : List Datum) : Except (Fault Float) (List Nat) := do
  let _ ← order.mapM qubit
  values.mapM qubit

/-- Values as qubits in their own order. -/
def qubits (values : List Datum) : Except (Fault Float) (List Nat) := values.mapM qubit

/-- Three values as qubits, the last two read before the first. -/
def triple (a b t : Datum) : Except (Fault Float) (Nat × Nat × Nat) := do
  let b ← b.qubit
  let t ← t.qubit
  let a ← a.qubit
  return (a, b, t)

/-- Pairs of values from both ends, as far as the middle. -/
def fromBothEnds (values : List Datum) : List Datum :=
  ((values.zip values.reverse).take (values.length / 2)).flatMap fun (a, b) => [a, b]

/-- The rotation of a list of qubits by their parity. -/
def parityRotation (list theta : Datum) : Except (Fault Float) (Circuit Float) := do
  let values ← requireQubits "MultiQubitZZ" 1 (← list.items)
  let qs ← qubits values
  QuantumGates.parityRotation qs (← theta.toParam)

/-- The rotation of a list of qubits around the first axis of each. -/
def flipRotation (list theta : Datum) : Except (Fault Float) (Circuit Float) := do
  let values ← requireQubits "MultiQubitMS" 1 (← list.items)
  let qs ← qubits values
  QuantumGates.flipRotation qs (← theta.toParam)

/-- The ladder for a phase on the state 111, which is half a turn if none is given. -/
def phaseLadder (a b t theta : Datum) : Except (Fault Float) (Circuit Float) := do
  match theta with
  | nothing =>
    let (a, b, t) ← triple a b t
    return signLadder a b t
  | _ =>
    let theta ← theta.toParam
    let (a, b, t) ← triple a b t
    QuantumGates.phaseLadder a b t theta

/-- The flip of the third qubit that the first two control. -/
def toffoliCircuit (a b t : Datum) : Except (Fault Float) (Circuit Float) := do
  let (a, b, t) ← triple a b t
  return QuantumGates.toffoliCircuit a b t

/-- The last value and then the others. -/
def lastFirst (values : List Datum) : List Datum :=
  values.drop (values.length - 1) ++ values.dropLast

/-- The phase on the state in which all qubits of a list are 1. -/
def parityNetwork (list theta : Datum) : Except (Fault Float) (Circuit Float) := do
  let values ← requireQubits "A multi-controlled phase" 1 (← list.items)
  let theta ← theta.toParam
  QuantumGates.parityNetwork (← qubitsBy (lastFirst values) values) theta

/-- The flip of the last qubit of a list that all others control. -/
def controlledNot (list : Datum) : Except (Fault Float) (Circuit Float) := do
  let values ← requireQubits "MultiQubitCNOT" 1 (← list.items)
  match values with
  | [a, b, t] => toffoliCircuit a b t
  | _ =>
    let order := if values.length < 3 then values else lastFirst values
    QuantumGates.controlledNot (← qubitsBy order values)

/-- The Fourier transform of a list of qubits. -/
def fourierCircuit (list swaps inverse : Datum) : Except (Fault Float) (Circuit Float) := do
  let values ← list.items
  let qs ← qubitsBy (fromBothEnds values) values
  QuantumGates.fourierCircuit qs swaps.isTrue inverse.isTrue

end Datum

end QuantumGates
