-- The quantum Fourier transform as Hadamard gates and controlled phases, with exchanges that
-- reverse the order of the qubits. The inverse has the same gates with opposite phases, and its
-- exchanges come first.
import QuantumGates.Circuit.ParityNetwork

namespace QuantumGates

variable {R : Type} [Scalar R]

/-- Exchanges of each qubit of the first half with the one as far from the end. -/
def reversal (qubits : List Nat) : Circuit R :=
  ((qubits.zip qubits.reverse).take (qubits.length / 2)).map fun (a, b) => .swap a b

/-- Controlled phases from later qubits to `q`, the next one at distance `k`. -/
def phasesTo (sign : R) (q : Nat) : Nat → List Nat → Except (Fault R) (Circuit R)
  | _, [] => .ok []
  | k, p :: rest => do
    let angle := sign * (Scalar.pi / (← powerOfTwo? k))
    return .controlledPhase p q (.literal angle) :: (← phasesTo sign q (k + 1) rest)

/-- A Hadamard gate on each qubit, followed by the phases from all later ones. -/
def fourierLadder (sign : R) : List Nat → Except (Fault R) (Circuit R)
  | [] => .ok []
  | q :: rest => do
    return .hadamard q :: (← phasesTo sign q 1 rest) ++ (← fourierLadder sign rest)

/-- The circuit of the Fourier transform. -/
def fourierCircuit (qubits : List Nat) (swaps inverse : Bool) : Except (Fault R) (Circuit R) := do
  let exchanges : Circuit R := if swaps then reversal qubits else []
  let steps ← fourierLadder (if inverse then -1 else 1) qubits
  return if inverse then exchanges ++ steps else steps ++ exchanges

end QuantumGates
