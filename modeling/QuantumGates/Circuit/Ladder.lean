-- The doubly controlled phase as controlled flips and quarter phases, and the doubly
-- controlled flip, which is the same ladder between Hadamard gates on its target.
import QuantumGates.Circuit.Basic
import QuantumGates.Gate.Canonical
import QuantumGates.Gate.Shorthand

namespace QuantumGates

variable {R : Type} [Scalar R]

/-- The part of the ladder that touches the target. -/
def ladderHead (plus minus : Nat → Operation (Param R)) (a b t : Nat) : Circuit R :=
  [.cnot b t, minus t, .cnot a t, plus t, .cnot b t, minus t, .cnot a t, plus b, plus t]

/-- The part of the ladder on the controls only. -/
def ladderTail (plus minus : Nat → Operation (Param R)) (a b : Nat) : Circuit R :=
  [.cnot a b, plus a, minus b, .cnot a b]

/-- The ladder made of quarter phases in both directions. -/
def ladder (plus minus : Nat → Operation (Param R)) (a b t : Nat) : Circuit R :=
  ladderHead plus minus a b t ++ ladderTail plus minus a b

/-- The quarter of half a turn, taken back. -/
def backEighth (q : Nat) : Operation (Param R) :=
  .phaseShift q (.literal (-Scalar.pi / Scalar.whole 4))

/-- The ladder for a phase of half a turn. -/
def signLadder (a b t : Nat) : Circuit R := ladder Operation.tGate backEighth a b t

/-- The ladder for a phase `theta` on the state 111. -/
def phaseLadder (a b t : Nat) (theta : Param R) : Except (Fault R) (Circuit R) := do
  let quarter ← theta.div (.literal (Scalar.whole 4))
  return ladder (Operation.phaseShift · quarter) (Operation.phaseShift · quarter.neg) a b t

/-- The flip of the last qubit that two others control. -/
def toffoliCircuit (a b t : Nat) : Circuit R :=
  .hadamard t :: ladderHead Operation.tGate backEighth a b t ++
    .hadamard t :: ladderTail Operation.tGate backEighth a b

end QuantumGates
