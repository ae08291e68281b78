-- Renaming the qubits of operations. Where every qubit has a new name, renaming succeeds and
-- gives the operation with the new names and all else as before; its matrix depends on the
-- qubits by their number only.
import Mathlib.Tactic
import QuantumGates.Circuit.Unitary
import QuantumGates.Proofs.Results

namespace QuantumGates

/-! ## Fields -/

section

variable {P : Type}

/-- A value with its qubits renamed. -/
def FieldKind.renamed (g : ℕ → ℕ) : (k : FieldKind) → k.Carrier P → k.Carrier P
  | .qubit, q => g q
  | .qubits, qs => qs.map g
  | .parameter, p => p
  | .parameters, ps => ps
  | .flag, b => b
  | .name, s => s

/-- Values with their qubits renamed. -/
def Args.renamed (g : ℕ → ℕ) : (fs : List Field) → Args P fs → Args P fs
  | [], _ => ()
  | f :: fs, (x, rest) => (f.kind.renamed g x, renamed g fs rest)

theorem FieldKind.traverse_eq_ok {E : Type} {f : ℕ → Except E ℕ} {g : ℕ → ℕ} (k : FieldKind)
    (x : k.Carrier P) (h : ∀ q ∈ (k.tagged x).qubitList, f q = .ok (g q)) :
    k.traverse (m := Except E) f pure x = .ok (k.renamed g x) := by
  cases k with
  | qubit => exact h x (by simp [FieldKind.tagged, FieldValue.qubitList])
  | qubits => exact mapM_eq_ok h
  | parameter => rfl
  | parameters =>
    show List.mapM pure x = Except.ok x
    rw [List.mapM_pure]
    simp [pure, Except.pure]
  | flag => rfl
  | name => rfl

theorem Args.traverse_eq_ok {E : Type} {f : ℕ → Except E ℕ} {g : ℕ → ℕ} (fs : List Field)
    (a : Args P fs) (h : ∀ q ∈ (a.values fs).flatMap FieldValue.qubitList, f q = .ok (g q)) :
    a.traverse (m := Except E) f pure fs = .ok (a.renamed g fs) := by
  induction fs with
  | nil => rfl
  | cons fd fs ih =>
    obtain ⟨x, rest⟩ := a
    have hx := FieldKind.traverse_eq_ok (P := P) fd.kind x fun q hq =>
      h q (by simp [Args.values, hq])
    have hrest := ih rest fun q hq => h q (by
      rw [Args.values, List.flatMap_cons, List.mem_append]
      exact Or.inr hq)
    rw [Args.traverse, hx]
    show (do let rest ← Args.traverse f pure fs rest; pure (fd.kind.renamed g x, rest)) = _
    rw [hrest]
    rfl

theorem FieldKind.qubitList_renamed (g : ℕ → ℕ) (k : FieldKind) (x : k.Carrier P) :
    (k.tagged (k.renamed g x)).qubitList = (k.tagged x).qubitList.map g := by
  cases k <;> rfl

theorem Args.qubits_renamed (g : ℕ → ℕ) (fs : List Field) (a : Args P fs) :
    ((a.renamed g fs).values fs).flatMap FieldValue.qubitList =
      ((a.values fs).flatMap FieldValue.qubitList).map g := by
  induction fs with
  | nil => rfl
  | cons f fs ih =>
    obtain ⟨x, rest⟩ := a
    rw [Args.renamed, Args.values, Args.values, List.flatMap_cons, List.flatMap_cons,
      List.map_append, ih, FieldKind.qubitList_renamed]

end

/-! ## Operations -/

namespace Operation

section

variable {P : Type}

/-- An operation with its qubits renamed. -/
def renamed (g : ℕ → ℕ) (op : Operation P) : Operation P :=
  ⟨op.kind, op.args.renamed g op.kind.fields⟩

theorem qubits_renamed (g : ℕ → ℕ) (op : Operation P) :
    (op.renamed g).qubits = op.qubits.map g := Args.qubits_renamed g op.kind.fields op.args

theorem remap_eq_ok {E : Type} {f : ℕ → Except E ℕ} {g : ℕ → ℕ} {op : Operation P}
    (h : ∀ q ∈ op.qubits, f q = .ok (g q)) : op.remap f = .ok (op.renamed g) := by
  unfold remap
  rw [Args.traverse_eq_ok op.kind.fields op.args h]
  rfl

end

variable {R : Type} [Scalar R] (value : Param R → Except (Fault R) R) (tolerance : R)

/-- A matrix reads no qubit but at most counts them. -/
theorem matrix?_renamed (g : ℕ → ℕ) (op : Operation (Param R)) :
    (op.renamed g).matrix? value tolerance = op.matrix? value tolerance := by
  obtain ⟨k, args⟩ := op
  cases k with
  | single k => cases k <;> rfl
  | two k => cases k <;> rfl
  | three k => cases k <;> rfl
  | four k => cases k <;> rfl
  | register k =>
    cases k with
    | ms => simp [renamed, matrix?, RegisterKind.matrix, Args.renamed, FieldKind.renamed]
    | zz => simp [renamed, matrix?, RegisterKind.matrix, Args.renamed, FieldKind.renamed]
    | cnot => simp [renamed, matrix?, RegisterKind.matrix, Args.renamed, FieldKind.renamed]
    | qft => simp [renamed, matrix?, RegisterKind.matrix, Args.renamed, FieldKind.renamed]
  | call => rfl

end Operation

namespace Circuit

theorem remap_eq_ok {R E : Type} {f : ℕ → Except E ℕ} {g : ℕ → ℕ} {c : Circuit R}
    (h : ∀ op ∈ c, ∀ q ∈ op.qubits, f q = .ok (g q)) :
    c.remap f = .ok (c.map (Operation.renamed g)) := by
  unfold remap
  induction c with
  | nil => rfl
  | cons op c ih =>
    rw [List.mapM_cons, Operation.remap_eq_ok (h op (by simp)), ih fun o ho => h o (by simp [ho])]
    rfl

end Circuit

end QuantumGates
