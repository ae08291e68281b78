-- Operations: a kind and one value for each of its fields. Qubits are renamed and parameters
-- evaluated without touching anything else; if one of them fails, there is no new operation.
import QuantumGates.Gate.Kind
import QuantumGates.Param

namespace QuantumGates

/-- An operation with parameters of type `P`. -/
structure Operation (P : Type) where
  kind : Kind
  args : Args P kind.fields

namespace Operation

variable {P : Type}

/-- The values of the fields, in their order. -/
def values (op : Operation P) : List (FieldValue P) := op.args.values op.kind.fields

/-- The names and values of the fields, in their order. -/
def entries (op : Operation P) : List (String × FieldValue P) :=
  (op.kind.fields.map (·.name)).zip op.values

/-- The value of a field. -/
def field? (op : Operation P) (name : String) : Option (FieldValue P) := op.entries.lookup name

/-- The qubits in the order of the tensor factors, the most significant one first. -/
def qubits (op : Operation P) : List Nat := op.values.flatMap FieldValue.qubitList

def parameters (op : Operation P) : List P := op.values.flatMap FieldValue.parameterList

/-! ## Changes -/

/-- Renames every qubit. -/
def remap {E : Type} (op : Operation P) (rename : Nat → Except E Nat) :
    Except E (Operation P) :=
  (op.args.traverse rename pure op.kind.fields).map (⟨op.kind, ·⟩)

/-- Changes every parameter. -/
def mapParameters {E Q : Type} (op : Operation P) (change : P → Except E Q) :
    Except E (Operation Q) :=
  (op.args.traverse pure change op.kind.fields).map (⟨op.kind, ·⟩)

/-- Changes the angle theta. -/
def onTheta (op : Operation P) (change : P → P) : Operation P :=
  ⟨op.kind, op.args.onNamed "theta" change op.kind.fields⟩

/-! ## Parameters that are numbers or expressions -/

variable {R : Type} [Scalar R]

/-- Replaces every expression by its value. -/
def substitute (op : Operation (Param R)) (evaluate : String → Except (Fault R) R) :
    Except (Fault R) (Operation (Param R)) :=
  op.mapParameters (Param.substitute evaluate)

/-- Whether a parameter is an expression. -/
def isParametrized (op : Operation (Param R)) : Bool := op.parameters.any Param.isSymbolic

/-- Lists of values that agree one by one. -/
def agree : List (FieldValue (Param R)) → List (FieldValue (Param R)) → Bool
  | [], [] => true
  | x :: xs, y :: ys => x.equalBy Param.equal y && agree xs ys
  | _, _ => false

/-- The same kind and the same values. -/
def equal (a b : Operation (Param R)) : Bool := a.kind == b.kind && agree a.values b.values

/-- Items in square brackets. -/
def bracketed (items : List String) : String := "[" ++ String.intercalate ", " items ++ "]"

/-- The text of a flag. -/
def flagText (b : Bool) : String := if b then "True" else "False"

/-- A value as the text of an operation shows it. -/
def valueText : FieldValue (Param R) → String
  | .qubit q => toString q
  | .qubits qs => bracketed (qs.map toString)
  | .parameter p => p.shown
  | .parameters ps => bracketed (ps.map Param.shown)
  | .flag b => flagText b
  | .name s => quoted s

/-- The text of an operation: its name and its fields. -/
def text (op : Operation (Param R)) : String :=
  op.kind.name ++ "(" ++
    String.intercalate ", " (op.entries.map fun e => e.1 ++ "=" ++ valueText e.2) ++ ")"

end Operation

end QuantumGates
