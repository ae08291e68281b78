-- Rotations of many qubits at once. A staircase of controlled flips gathers the parity of all
-- qubits in the last one, a rotation acts on it, and the staircase is undone. Between layers
-- of Hadamard gates the same circuit rotates around the first axis of every qubit.
import QuantumGates.Circuit.Basic
import QuantumGates.Gate.Shorthand

namespace QuantumGates

variable {R : Type} [Scalar R]

/-- The qubits, if there are at least as many as a builder needs. -/
def requireQubits {Q : Type} (builder : String) (least : Nat) (qubits : List Q) :
    Except (Fault R) (List Q) :=
  if qubits.length < least then .error (.tooFewQubits builder least qubits.length)
  else .ok qubits

/-- Controlled flips from each qubit to the next. -/
def staircase : List Nat → Circuit R
  | a :: b :: rest => Operation.cnot a b :: staircase (b :: rest)
  | _ => []

/-- The rotation that turns states of even and of odd parity against each other. -/
def parityRotation (qubits : List Nat) (theta : Param R) : Except (Fault R) (Circuit R) := do
  let qubits ← requireQubits "MultiQubitZZ" 1 qubits
  let steps := staircase qubits
  return steps ++ Operation.rotateZ (qubits.getLastD 0) theta :: steps.reverse

/-- The same rotation with respect to the first axis of every qubit. -/
def flipRotation (qubits : List Nat) (theta : Param R) : Except (Fault R) (Circuit R) := do
  let qubits ← requireQubits "MultiQubitMS" 1 qubits
  let layer : Circuit R := qubits.map Operation.hadamard
  return layer ++ (← parityRotation qubits theta) ++ layer

end QuantumGates
