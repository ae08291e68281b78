-- The values of the fields of an operation. A change of all parameters that succeeds relates each
-- of them to what it becomes and leaves every other value as it is, and it succeeds if it does on
-- each parameter. An operation is equal to itself unless one of its parameters is not a number.
import QuantumGates.Gate.Operation
import QuantumGates.Proofs.Number.DoubleValue
import QuantumGates.Proofs.Results

namespace QuantumGates

/-! ## Fields that are changed -/

section

variable {P Q E : Type} {r s : P → Q → Prop} {change : P → Except E Q}

/-- Related parameters, and any other value the same. -/
def FieldKind.Related (r : P → Q → Prop) : (k : FieldKind) → k.Carrier P → k.Carrier Q → Prop
  | .qubit, q, q' => q = q'
  | .qubits, qs, qs' => qs = qs'
  | .parameter, p, p' => r p p'
  | .parameters, ps, ps' => List.Forall₂ r ps ps'
  | .flag, c, c' => c = c'
  | .name, s, s' => s = s'

/-- The values of all fields are related. -/
def Args.Related (r : P → Q → Prop) : (fs : List Field) → Args P fs → Args Q fs → Prop
  | [], _, _ => True
  | f :: fs, (x, rest), (x', rest') => f.kind.Related r x x' ∧ Related r fs rest rest'

theorem FieldKind.traverse_eq_ok_iff {k : FieldKind} {x : k.Carrier P} {x' : k.Carrier Q} :
    k.traverse (m := Except E) pure change x = .ok x' ↔
      k.Related (fun p p' => change p = .ok p') x x' := by
  cases k with
  | qubit => exact ⟨Except.ok.inj, congrArg Except.ok⟩
  | qubits =>
    have hsame : List.mapM pure x = (Except.ok x : Except E (List ℕ)) := by
      rw [List.mapM_pure]
      simp [pure, Except.pure]
    show List.mapM pure x = Except.ok x' ↔ x = x'
    rw [hsame, Except.ok.injEq]
  | parameter => exact Iff.rfl
  | parameters => exact mapM_eq_ok_iff
  | flag => exact ⟨Except.ok.inj, congrArg Except.ok⟩
  | name => exact ⟨Except.ok.inj, congrArg Except.ok⟩

/-- A change of all parameters that succeeds relates each to what it becomes. -/
theorem Args.traverse_eq_ok_iff {fs : List Field} {args : Args P fs} {args' : Args Q fs} :
    args.traverse (m := Except E) pure change fs = .ok args' ↔
      args.Related (fun p p' => change p = .ok p') fs args' := by
  induction fs with
  | nil => exact ⟨fun _ => trivial, fun _ => rfl⟩
  | cons f fs ih =>
    constructor
    · intro h
      rw [Args.traverse] at h
      obtain ⟨x, hhead, h⟩ := bind_eq_ok h
      obtain ⟨rest, htail, h⟩ := bind_eq_ok h
      cases h
      exact ⟨FieldKind.traverse_eq_ok_iff.mp hhead, ih.mp htail⟩
    · rintro ⟨hhead, htail⟩
      rw [Args.traverse, FieldKind.traverse_eq_ok_iff.mpr hhead]
      show (do
        let rest ← Args.traverse pure change fs args.2
        pure (args'.1, rest)) = _
      rw [ih.mpr htail]
      rfl

theorem FieldKind.exists_related {k : FieldKind} {x : k.Carrier P}
    (h : ∀ p ∈ (k.tagged x).parameterList, ∃ p', r p p') : ∃ x', k.Related r x x' := by
  cases k with
  | qubit => exact ⟨x, rfl⟩
  | qubits => exact ⟨x, rfl⟩
  | parameter => exact h x (List.mem_singleton_self x)
  | parameters =>
    show ∃ x', List.Forall₂ r x x'
    induction x with
    | nil => exact ⟨[], .nil⟩
    | cons p ps ih =>
      obtain ⟨p', hp⟩ := h p (.head ps)
      obtain ⟨ps', hps⟩ := ih fun q hq => h q (.tail p hq)
      exact ⟨p' :: ps', .cons hp hps⟩
  | flag => exact ⟨x, rfl⟩
  | name => exact ⟨x, rfl⟩

theorem Args.exists_related {fs : List Field} {args : Args P fs}
    (h : ∀ p ∈ (args.values fs).flatMap FieldValue.parameterList, ∃ p', r p p') :
    ∃ args', args.Related r fs args' := by
  induction fs with
  | nil => exact ⟨(), trivial⟩
  | cons f fs ih =>
    rw [Args.values, List.flatMap_cons] at h
    obtain ⟨x, hx⟩ := FieldKind.exists_related fun p hp => h p (List.mem_append_left _ hp)
    obtain ⟨rest, hrest⟩ := ih fun p hp => h p (List.mem_append_right _ hp)
    exact ⟨(x, rest), hx, hrest⟩

theorem FieldKind.Related.imp {k : FieldKind} {x : k.Carrier P} {x' : k.Carrier Q}
    (h : k.Related r x x') (hrs : ∀ p ∈ (k.tagged x).parameterList, ∀ p', r p p' → s p p') :
    k.Related s x x' := by
  cases k with
  | qubit => exact h
  | qubits => exact h
  | parameter => exact hrs x (List.mem_singleton_self x) x' h
  | parameters =>
    have hall : List.Forall₂ r x x' := h
    show List.Forall₂ s x x'
    induction hall with
    | nil => exact .nil
    | cons hhead htail ih =>
      exact .cons (hrs _ (.head _) _ hhead) (ih htail fun p hp => hrs p (.tail _ hp))
  | flag => exact h
  | name => exact h

theorem Args.Related.imp {fs : List Field} {args : Args P fs} {args' : Args Q fs}
    (h : args.Related r fs args')
    (hrs : ∀ p ∈ (args.values fs).flatMap FieldValue.parameterList, ∀ p', r p p' → s p p') :
    args.Related s fs args' := by
  induction fs with
  | nil => trivial
  | cons f fs ih =>
    rw [Args.values, List.flatMap_cons] at hrs
    exact ⟨h.1.imp fun p hp => hrs p (List.mem_append_left _ hp),
      ih h.2 fun p hp => hrs p (List.mem_append_right _ hp)⟩

theorem FieldKind.Related.qubitList_eq {k : FieldKind} {x : k.Carrier P} {x' : k.Carrier Q}
    (h : k.Related r x x') : (k.tagged x).qubitList = (k.tagged x').qubitList := by
  cases k with
  | qubit => exact congrArg (fun q => [q]) h
  | qubits => exact h
  | parameter => rfl
  | parameters => rfl
  | flag => rfl
  | name => rfl

theorem Args.Related.qubits_eq {fs : List Field} {args : Args P fs} {args' : Args Q fs}
    (h : args.Related r fs args') : (args.values fs).flatMap FieldValue.qubitList =
      (args'.values fs).flatMap FieldValue.qubitList := by
  induction fs with
  | nil => rfl
  | cons f fs ih =>
    rw [Args.values, Args.values, List.flatMap_cons, List.flatMap_cons, h.1.qubitList_eq, ih h.2]

theorem FieldKind.Related.exists_of_mem {k : FieldKind} {x : k.Carrier P} {x' : k.Carrier Q}
    (h : k.Related r x x') {p' : Q} (hp : p' ∈ (k.tagged x').parameterList) : ∃ p, r p p' := by
  cases k with
  | qubit => exact absurd hp List.not_mem_nil
  | qubits => exact absurd hp List.not_mem_nil
  | parameter => exact ⟨x, List.mem_singleton.mp hp ▸ h⟩
  | parameters =>
    obtain ⟨i, hi, rfl⟩ := List.getElem_of_mem hp
    have hall : List.Forall₂ r x x' := h
    exact ⟨_, hall.get (hall.length_eq ▸ hi) hi⟩
  | flag => exact absurd hp List.not_mem_nil
  | name => exact absurd hp List.not_mem_nil

theorem Args.Related.exists_of_mem {fs : List Field} {args : Args P fs} {args' : Args Q fs}
    (h : args.Related r fs args') {p' : Q}
    (hp : p' ∈ (args'.values fs).flatMap FieldValue.parameterList) : ∃ p, r p p' := by
  induction fs with
  | nil => exact absurd hp List.not_mem_nil
  | cons f fs ih =>
    rw [Args.values, List.flatMap_cons, List.mem_append] at hp
    exact hp.elim h.1.exists_of_mem (ih h.2)

/-- A change of the parameters of an operation keeps its kind. -/
theorem Operation.mapParameters_eq_ok_iff {op : Operation P} {op' : Operation Q} :
    op.mapParameters change = .ok op' ↔
      ∃ args' : Args Q op.kind.fields, op' = ⟨op.kind, args'⟩ ∧
        op.args.Related (fun p p' => change p = .ok p') op.kind.fields args' := by
  unfold mapParameters
  constructor
  · intro h
    cases hargs : op.args.traverse (m := Except E) pure change op.kind.fields with
    | error fault =>
      rw [hargs] at h
      cases h
    | ok args' =>
      rw [hargs] at h
      cases h
      exact ⟨args', rfl, Args.traverse_eq_ok_iff.mp hargs⟩
  · rintro ⟨args', rfl, hargs⟩
    rw [Args.traverse_eq_ok_iff.mpr hargs]
    rfl

end

/-! ## Equal values -/

/-- Values with parameters that are equal to themselves. -/
theorem FieldValue.equalBy_self {P : Type} (same : P → P → Bool) (v : FieldValue P) :
    v.equalBy same v = v.parameterList.all fun p => same p p := by
  have hagree : ∀ ps : List P, FieldValue.agree same ps ps = ps.all fun p => same p p := by
    intro ps
    induction ps with
    | nil => rfl
    | cons p ps ih => rw [FieldValue.agree, ih, List.all_cons]
  cases v with
  | qubit q => exact beq_self_eq_true q
  | qubits qs => exact beq_self_eq_true qs
  | parameter p => exact (Bool.and_true _).symm
  | parameters ps => exact hagree ps
  | flag b => exact beq_self_eq_true b
  | name s => exact beq_self_eq_true s

theorem Operation.equal_self {R : Type} [Scalar R] (op : Operation (Param R)) :
    op.equal op = op.parameters.all fun p => p.equal p := by
  have hagree : ∀ vs : List (FieldValue (Param R)), agree vs vs =
      (vs.flatMap FieldValue.parameterList).all fun p => p.equal p := by
    intro vs
    induction vs with
    | nil => rfl
    | cons v vs ih => rw [agree, ih, FieldValue.equalBy_self, List.flatMap_cons, List.all_append]
  unfold equal parameters
  rw [beq_self_eq_true, Bool.true_and, hagree]

theorem Param.equal_self_iff {p : Param Float} :
    p.equal p = true ↔ ∀ x, p = .literal x → x.isNaN = false := by
  cases p with
  | literal x =>
    show (x == x) = true ↔ _
    rw [Double.beq_self, Bool.not_eq_true']
    exact ⟨fun h y hy => Param.literal.inj hy ▸ h, fun h => h x rfl⟩
  | expression s => exact iff_of_true (beq_self_eq_true s) nofun

theorem Operation.equal_self_iff {op : Operation (Param Float)} :
    op.equal op = true ↔ ∀ x, .literal x ∈ op.parameters → x.isNaN = false := by
  rw [equal_self, List.all_eq_true]
  simp only [Param.equal_self_iff]
  exact ⟨fun h x hx => h _ hx x rfl, fun h p hp x hx => h x (hx ▸ hp)⟩

end QuantumGates
