-- The phase `theta` on the state in which all of `n` qubits are 1. It is a sum over the subsets
-- of the qubits: each adds its parity times `theta / 2 ^ (n - 1)`, positive for subsets of odd
-- size. The subsets with a given highest qubit are visited in the order of the Gray code, so
-- that one controlled flip leads from each to the next; a last flip restores the highest qubit.
import QuantumGates.Circuit.Ladder
import QuantumGates.Circuit.Staircase

namespace QuantumGates

/-! ## Gray code -/

/-- The Gray code of a number. -/
def grayCode (k : Nat) : Nat := k ^^^ (k >>> 1)

/-- The place of the highest bit of a number that is not nought. -/
def highestBit (n : Nat) : Nat := n.log2

/-- Whether an even count of bits is set. -/
def evenBits (n : Nat) : Bool := go n n
where
  go : Nat → Nat → Bool
    | 0, _ => true
    | fuel + 1, k => (k % 2 == 0) == go fuel (k / 2)

variable {R : Type} [Scalar R]

/-! ## The network -/

/-- A power of two as a number, if it is in range. -/
def powerOfTwo? (k : Nat) : Except (Fault R) R :=
  let x : R := Scalar.whole (Nat.pow 2 k)
  if Scalar.isFinite x then .ok x else .error .tooLarge

/-- The flip of the accumulator by the lower qubit at the highest bit of `code`. -/
def foldFlip (lower : List Nat) (accumulator code : Nat) : Circuit R :=
  if code = 0 then [] else [.cnot (lower[highestBit code]?.getD 0) accumulator]

/-- One step of the Gray code: the flip that leads to it and the phase of its subset. -/
def networkStep (lower : List Nat) (accumulator : Nat) (angle : Param R) (step : Nat) :
    Circuit R :=
  let code := grayCode step
  foldFlip lower accumulator (code ^^^ grayCode (step - 1)) ++
    [.phaseShift accumulator (if evenBits code then angle else angle.neg)]

/-- The phases of all subsets with a given highest qubit. -/
def networkBlock (lower : List Nat) (accumulator : Nat) (angle : Param R) : Circuit R :=
  let steps := Nat.pow 2 lower.length
  (List.range steps).flatMap (networkStep lower accumulator angle) ++
    foldFlip lower accumulator (grayCode (steps - 1))

/-- The phase `theta` on the state in which all listed qubits are 1. -/
def parityNetwork (qubits : List Nat) (theta : Param R) : Except (Fault R) (Circuit R) := do
  let qubits ← requireQubits "A multi-controlled phase" 1 qubits
  let angle ← theta.div (.literal (← powerOfTwo? (qubits.length - 1)))
  return (List.range qubits.length).reverse.flatMap fun highest =>
    networkBlock (qubits.take highest) (qubits[highest]?.getD 0) angle

/-- Hadamard gates on the last qubit around a phase of half a turn. -/
def networkNot (qubits : List Nat) : Except (Fault R) (Circuit R) := do
  let target := qubits.getLastD 0
  let network ← parityNetwork qubits (.literal Scalar.pi)
  return .hadamard target :: network ++ [.hadamard target]

/-- The flip of the last qubit that all others control. -/
def controlledNot (qubits : List Nat) : Except (Fault R) (Circuit R) := do
  match ← requireQubits "MultiQubitCNOT" 1 qubits with
  | [q] => return [.pauliX q]
  | [a, b] => return [.cnot a b]
  | [a, b, t] => return toffoliCircuit a b t
  | _ => networkNot qubits

end QuantumGates
