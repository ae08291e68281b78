-- Circuits: operations one after another, the first one acting first. Involved qubits are
-- collected over a circuit, and renaming or evaluating a circuit does so with each operation;
-- where one of them fails there is no new circuit.
import QuantumGates.Gate.Operation

namespace QuantumGates

/-- Operations in the order in which they act. -/
abbrev Circuit (R : Type) := List (Operation (Param R))

/-! ## Involved qubits -/

/-- How the qubits that something acts on are told. -/
inductive InvolvedKind
  | all
  | none
  | set
deriving DecidableEq, Repr

def InvolvedKind.name : InvolvedKind → String
  | all => "All"
  | none => "None"
  | set => "Set"

def InvolvedKind.ofName? (name : String) : Option InvolvedKind :=
  [all, none, set].find? fun k => k.name == name

/-- The qubits that something acts on. Callers may name numbers that no operation can have. -/
structure Involved where
  kind : InvolvedKind
  qubits : List Int
deriving DecidableEq, Repr

namespace Involved

/-- A list in ascending order without repetitions. -/
def ordered (qs : List Int) : List Int := (qs.mergeSort fun a b => decide (a ≤ b)).eraseDups

/-- A kind with a set of qubits, given in any order. -/
def make (kind : InvolvedKind) (qs : List Int) : Involved := ⟨kind, ordered qs⟩

/-- A set of qubits of a register. -/
def of (qs : List Nat) : Involved := make .set (qs.map Int.ofNat)

def all : Involved := ⟨.all, []⟩
def none : Involved := ⟨.none, []⟩

end Involved

variable {R : Type} [Scalar R]

/-- The qubits that an operation acts on. -/
def Operation.involved (op : Operation (Param R)) : Involved := Involved.of op.qubits

namespace Circuit

/-- The qubits that the operations of a circuit act on. -/
def involved (c : Circuit R) : Involved :=
  let qs := c.flatMap Operation.qubits
  if qs.isEmpty then Involved.none else Involved.of qs

/-- The least size of a register that holds a circuit. -/
def numberOfQubits (c : Circuit R) : Nat :=
  match c.flatMap Operation.qubits with
  | [] => 0
  | q :: qs => qs.foldl max q + 1

def isParametrized (c : Circuit R) : Bool := c.any Operation.isParametrized

/-- Replaces every expression of a circuit by its value. -/
def substitute (c : Circuit R) (evaluate : String → Except (Fault R) R) :
    Except (Fault R) (Circuit R) :=
  c.mapM fun op => op.substitute evaluate

/-- Renames every qubit of a circuit. -/
def remap {E : Type} (c : Circuit R) (rename : Nat → Except E Nat) : Except E (Circuit R) :=
  c.mapM fun op => op.remap rename

/-- Circuits whose operations are equal one by one. -/
def equal : Circuit R → Circuit R → Bool
  | [], [] => true
  | a :: as, b :: bs => a.equal b && equal as bs
  | _, _ => false

/-- The text of a circuit. -/
def text (c : Circuit R) : String :=
  "Circuit(" ++ Operation.bracketed (c.map Operation.text) ++ ")"

end Circuit

end QuantumGates
