-- The values of operations and circuits in exact arithmetic. An operation evaluates to another one
-- of its kind if each parameter evaluates to the number in its place and all other fields are the
-- same; this is the operation that a substitution gives.
import QuantumGates.Circuit.Basic
import QuantumGates.Proofs.Exact.Parameters
import QuantumGates.Proofs.Gate.Fields

namespace QuantumGates

variable {R : Type} [ExactScalar R]

/-! ## Fields -/

section

variable (E : ExactEvaluation R) (b : Bindings R)

/-- A parameter evaluates to the number in its place, and any other value is the same. -/
def FieldKind.EvaluatesTo : (k : FieldKind) → k.Carrier (Param R) → k.Carrier (Param R) → Prop
  | .qubit, q, q' => q = q'
  | .qubits, qs, qs' => qs = qs'
  | .parameter, p, p' => p.EvaluatesTo E b p'
  | .parameters, ps, ps' => List.Forall₂ (Param.EvaluatesTo E b) ps ps'
  | .flag, c, c' => c = c'
  | .name, s, s' => s = s'

/-- The values of all fields evaluate to those in their places. -/
def Args.EvaluatesTo : (fs : List Field) → Args (Param R) fs → Args (Param R) fs → Prop
  | [], _, _ => True
  | f :: fs, (x, rest), (x', rest') =>
    f.kind.EvaluatesTo E b x x' ∧ EvaluatesTo fs rest rest'

/-- An operation of the same kind whose parameters are the values of those of another one. -/
inductive Operation.EvaluatesTo : Operation (Param R) → Operation (Param R) → Prop
  | mk {k : Kind} {args args' : Args (Param R) k.fields} :
    Args.EvaluatesTo E b k.fields args args' → EvaluatesTo ⟨k, args⟩ ⟨k, args'⟩

/-- Circuits whose operations evaluate to each other one by one. -/
def Circuit.EvaluatesTo (c c' : Circuit R) : Prop :=
  List.Forall₂ (Operation.EvaluatesTo E b) c c'

end

section

variable {E : ExactEvaluation R} {b : Bindings R}

/-! ## Substitution -/

theorem FieldKind.evaluatesTo_iff {k : FieldKind} {x x' : k.Carrier (Param R)} :
    k.EvaluatesTo E b x x' ↔ k.Related (Param.EvaluatesTo E b) x x' := by
  cases k <;> exact Iff.rfl

theorem Args.evaluatesTo_iff {fs : List Field} {args args' : Args (Param R) fs} :
    args.EvaluatesTo E b fs args' ↔ args.Related (Param.EvaluatesTo E b) fs args' := by
  induction fs with
  | nil => exact Iff.rfl
  | cons f fs ih => exact and_congr FieldKind.evaluatesTo_iff ih

/-- Substitution gives the operation that an operation evaluates to. -/
theorem Operation.EvaluatesTo.substitute_eq_ok {op op' : Operation (Param R)}
    (h : op.EvaluatesTo E b op') : op.substitute (E.evaluate b) = .ok op' := by
  obtain ⟨hargs⟩ := h
  exact Operation.mapParameters_eq_ok_iff.mpr ⟨_, rfl,
    (Args.evaluatesTo_iff.mp hargs).imp fun _ _ _ hp => hp.substitute_eq_ok⟩

/-- An operation with plain parameters evaluates to what a substitution gives. -/
theorem Operation.EvaluatesTo.of_substitute {op op' : Operation (Param R)}
    (hplain : ∀ s, .expression s ∈ op.parameters → IsPlainText s.toList)
    (h : op.substitute (E.evaluate b) = .ok op') : op.EvaluatesTo E b op' := by
  obtain ⟨args', rfl, hargs⟩ := Operation.mapParameters_eq_ok_iff.mp h
  exact ⟨Args.evaluatesTo_iff.mpr (hargs.imp fun _ hp _ hsubstitute =>
    .of_substitute (fun s hs => hplain s (hs ▸ hp)) hsubstitute)⟩

/-- Evaluation keeps the qubits. -/
theorem Operation.EvaluatesTo.qubits_eq {op op' : Operation (Param R)}
    (h : op.EvaluatesTo E b op') : op.qubits = op'.qubits := by
  obtain ⟨hargs⟩ := h
  exact (Args.evaluatesTo_iff.mp hargs).qubits_eq

theorem Circuit.EvaluatesTo.substitute_eq_ok {c c' : Circuit R} (h : c.EvaluatesTo E b c') :
    c.substitute (E.evaluate b) = .ok c' :=
  mapM_eq_ok_iff.mpr (List.Forall₂.imp (fun _ _ => (·.substitute_eq_ok)) h)

end

end QuantumGates
