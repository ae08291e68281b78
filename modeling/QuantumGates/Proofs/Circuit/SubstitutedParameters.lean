-- Evaluating the parameters of operations and circuits. There is a result just when every expression
-- has a value, and it differs from what was given in the expressions only: each is the number that
-- it has as a value, and numbers, qubits, flags and names are as they were. Where an expression has
-- no value, the first one in order says why.
import QuantumGates.Datum.Table
import QuantumGates.Proofs.Circuit.FirstFault
import QuantumGates.Proofs.Gate.EvaluatedGates
import QuantumGates.Proofs.Gate.ParameterValues

namespace QuantumGates

/-! ## What parameters become -/

section

variable {R : Type} (evaluate : String → Except (Fault R) R)

/-- A number stays as it is, and an expression becomes its value. -/
def Param.Becomes : Param R → Param R → Prop
  | .literal x, p' => p' = .literal x
  | .expression text, p' => ∃ x, evaluate text = .ok x ∧ p' = .literal x

/-- Parameters become what they stand for, one by one, and any other value stays as it is. -/
def FieldValue.Becomes : FieldValue (Param R) → FieldValue (Param R) → Prop
  | .parameter p, v => ∃ p', p.Becomes evaluate p' ∧ v = .parameter p'
  | .parameters ps, v => ∃ ps', List.Forall₂ (Param.Becomes evaluate) ps ps' ∧ v = .parameters ps'
  | v, v' => v' = v

/-- An operation of the same kind with the same values, but for the parameters. -/
structure Operation.Becomes (op op' : Operation (Param R)) : Prop where
  kind_eq : op'.kind = op.kind
  values : List.Forall₂ (FieldValue.Becomes evaluate) op.values op'.values

end

section

variable {R : Type} {evaluate : String → Except (Fault R) R} {op op' : Operation (Param R)}

theorem Param.substitute_eq_ok_iff_becomes {p p' : Param R} :
    p.substitute evaluate = .ok p' ↔ p.Becomes evaluate p' := by
  rw [substitute_eq_ok_iff]
  cases p with
  | literal x =>
    constructor
    · rintro ⟨y, ⟨⟩, rfl⟩
      rfl
    · rintro rfl
      exact ⟨x, rfl, rfl⟩
  | expression text => exact Iff.rfl

theorem FieldKind.Related.becomes {k : FieldKind} {x x' : k.Carrier (Param R)}
    (h : k.Related (Param.Becomes evaluate) x x') :
    (k.tagged x).Becomes evaluate (k.tagged x') := by
  cases k with
  | qubit => exact congrArg FieldValue.qubit h.symm
  | qubits => exact congrArg FieldValue.qubits h.symm
  | parameter => exact ⟨x', h, rfl⟩
  | parameters => exact ⟨x', h, rfl⟩
  | flag => exact congrArg FieldValue.flag h.symm
  | name => exact congrArg FieldValue.name h.symm

theorem Args.Related.becomes {fs : List Field} {args args' : Args (Param R) fs}
    (h : args.Related (Param.Becomes evaluate) fs args') :
    List.Forall₂ (FieldValue.Becomes evaluate) (args.values fs) (args'.values fs) := by
  induction fs with
  | nil => exact .nil
  | cons f fs ih => exact .cons h.1.becomes (ih h.2)

/-- An evaluated operation has the values of the parameters in their places. -/
theorem Operation.becomes_of_substitute (h : op.substitute evaluate = .ok op') :
    op.Becomes evaluate op' := by
  obtain ⟨args', rfl, hargs⟩ := mapParameters_eq_ok_iff.mp h
  exact ⟨rfl, (hargs.imp fun _ _ _ => Param.substitute_eq_ok_iff_becomes.mp).becomes⟩

theorem FieldValue.Becomes.qubitList_eq {v v' : FieldValue (Param R)} (h : v.Becomes evaluate v') :
    v.qubitList = v'.qubitList := by
  cases v with
  | parameter p =>
    obtain ⟨p', -, rfl⟩ := h
    rfl
  | parameters ps =>
    obtain ⟨ps', -, rfl⟩ := h
    rfl
  | _ => exact congrArg FieldValue.qubitList h.symm

theorem FieldValue.Becomes.parameterList {v v' : FieldValue (Param R)} (h : v.Becomes evaluate v') :
    List.Forall₂ (Param.Becomes evaluate) v.parameterList v'.parameterList := by
  cases v with
  | parameter p =>
    obtain ⟨p', hp, rfl⟩ := h
    exact .cons hp .nil
  | parameters ps =>
    obtain ⟨ps', hps, rfl⟩ := h
    exact hps
  | _ =>
    obtain rfl := h
    exact .nil

namespace Operation.Becomes

theorem qubits_eq (h : op.Becomes evaluate op') : op'.qubits = op.qubits := by
  have hall : List.Forall₂ (· = ·) op.qubits op'.qubits :=
    List.rel_flatMap h.values fun _ _ hv => List.forall₂_eq_eq_eq ▸ hv.qubitList_eq
  rw [List.forall₂_eq_eq_eq] at hall
  exact hall.symm

theorem parameters (h : op.Becomes evaluate op') :
    List.Forall₂ (Param.Becomes evaluate) op.parameters op'.parameters :=
  List.rel_flatMap h.values fun _ _ hv => hv.parameterList

end Operation.Becomes

/-! ## Operations without expressions -/

theorem FieldKind.related_self {P : Type} {r : P → P → Prop} {k : FieldKind} {x : k.Carrier P}
    (h : ∀ p ∈ (k.tagged x).parameterList, r p p) : k.Related r x x := by
  cases k with
  | qubit => rfl
  | qubits => rfl
  | parameter => exact h x (List.mem_singleton_self x)
  | parameters => exact List.forall₂_same.mpr h
  | flag => rfl
  | name => rfl

theorem Args.related_self {P : Type} {r : P → P → Prop} {fs : List Field} {args : Args P fs}
    (h : ∀ p ∈ (args.values fs).flatMap FieldValue.parameterList, r p p) :
    args.Related r fs args := by
  induction fs with
  | nil => trivial
  | cons f fs ih =>
    rw [Args.values, List.flatMap_cons] at h
    exact ⟨FieldKind.related_self fun p hp => h p (List.mem_append_left _ hp),
      ih fun p hp => h p (List.mem_append_right _ hp)⟩

/-- An operation without expressions is its own evaluation, whatever the values of variables. -/
theorem Operation.substitute_of_not_parametrized (h : op.isParametrized = false) :
    op.substitute evaluate = .ok op := by
  refine mapParameters_eq_ok_iff.mpr ⟨op.args, rfl, Args.related_self fun p hp => ?_⟩
  cases p with
  | literal x => rfl
  | expression text => exact absurd rfl (List.any_eq_false.mp h _ hp)

theorem Circuit.substitute_of_not_parametrized {c : Circuit R} (h : c.isParametrized = false) :
    c.substitute evaluate = .ok c :=
  mapM_eq_ok_iff.mpr (List.forall₂_same.mpr fun op hop =>
    Operation.substitute_of_not_parametrized (Bool.not_eq_true _ ▸ List.any_eq_false.mp h op hop))

theorem Circuit.becomes_of_substitute {c c' : Circuit R} (h : c.substitute evaluate = .ok c') :
    List.Forall₂ (Operation.Becomes evaluate) c c' :=
  (mapM_eq_ok_iff.mp h).imp fun _ _ => Operation.becomes_of_substitute

theorem Circuit.isParametrized_substitute {c c' : Circuit R} (h : c.substitute evaluate = .ok c') :
    c'.isParametrized = false := by
  refine List.any_eq_false.mpr fun op' hop => ?_
  obtain ⟨i, hi, rfl⟩ := List.getElem_of_mem hop
  have hall := mapM_eq_ok_iff.mp h
  have hliteral : c'[i].isParametrized = false :=
    Operation.isParametrized_substitute (hall.get (hall.length_eq ▸ hi) hi)
  rw [hliteral]
  exact Bool.false_ne_true

end

/-! ## Tables -/

/-- An operation is evaluated as the table that was given says. -/
theorem Operation.substituteWith_eq (op : Operation (Param Float)) {table : Datum}
    {b : Bindings Float} (hb : Bindings.ofDatum table = .ok b) :
    op.substituteWith table = op.substitute b.evaluate := by
  unfold substituteWith
  rw [hb]
  rfl

theorem Circuit.substituteWith_eq (c : Circuit Float) {table : Datum} {b : Bindings Float}
    (hb : Bindings.ofDatum table = .ok b) : c.substituteWith table = c.substitute b.evaluate := by
  unfold substituteWith
  rw [hb]
  rfl

/-- Under any table, an operation or a circuit is evaluated just when all its expressions have
values, and else the first expression without a value gives the fault. What it becomes has the same
kinds, qubits, flags and names and as many parameters; numbers are kept, whatever they are, and each
expression is its value. So no expression is left, and no further table changes anything. -/
theorem substitute_by_table (table : Datum) (b : Bindings Float)
    (hb : Bindings.ofDatum table = .ok b) :
    (∀ op : Operation (Param Float),
      EndsInOrder b.evaluate op.expressions (op.substituteWith table) ∧
      ∀ op', op.substituteWith table = .ok op' →
        op.Becomes b.evaluate op' ∧ op'.qubits = op.qubits ∧
        List.Forall₂ (Param.Becomes b.evaluate) op.parameters op'.parameters ∧
        op'.isParametrized = false ∧
        ∀ further b', Bindings.ofDatum further = .ok b' → op'.substituteWith further = .ok op') ∧
    ∀ c : Circuit Float,
      EndsInOrder b.evaluate (c.flatMap Operation.expressions) (c.substituteWith table) ∧
      ∀ c', c.substituteWith table = .ok c' →
        List.Forall₂ (Operation.Becomes b.evaluate) c c' ∧ c'.isParametrized = false ∧
        ∀ further b', Bindings.ofDatum further = .ok b' → c'.substituteWith further = .ok c' := by
  constructor
  · intro op
    rw [op.substituteWith_eq hb]
    refine ⟨op.substitute_endsInOrder b.evaluate, fun op' h => ?_⟩
    have hbecomes := Operation.becomes_of_substitute h
    have hliteral := Operation.isParametrized_substitute h
    refine ⟨hbecomes, hbecomes.qubits_eq, hbecomes.parameters, hliteral, fun further b' hb' => ?_⟩
    rw [op'.substituteWith_eq hb']
    exact Operation.substitute_of_not_parametrized hliteral
  · intro c
    rw [c.substituteWith_eq hb]
    refine ⟨c.substitute_endsInOrder b.evaluate, fun c' h => ?_⟩
    have hliteral := Circuit.isParametrized_substitute h
    refine ⟨Circuit.becomes_of_substitute h, hliteral, fun further b' hb' => ?_⟩
    rw [c'.substituteWith_eq hb']
    exact Circuit.substitute_of_not_parametrized hliteral

/-- An expression next to a number that is undefined, and two expressions without a value. -/
theorem substitute_by_table_of_x :
    let nan : Float := 0.0 / 0.0
    let table : Datum := .mapping [(.text "x", .number 1.0)]
    let b : Bindings Float := ⟨[("x", 1.0)]⟩
    let op (theta : String) : Operation (Param Float) :=
      ⟨.single .rotateXY, 0, .expression theta, .literal nan, ()⟩
    Bindings.ofDatum table = .ok b ∧
    (∃ op', (op "x").substituteWith table = .ok op' ∧ op'.qubits = [0] ∧
      List.Forall₂ (Param.Becomes b.evaluate) [.expression "x", .literal nan] op'.parameters) ∧
    Circuit.substituteWith [op "x", op "y", op "z"] table =
      .error (.noValue "y" (.unbound ["y"])) := by
  intro nan table b op
  have hb : Bindings.ofDatum table = .ok b := rfl
  obtain ⟨hops, hcircuits⟩ := substitute_by_table table b hb
  have hx : ∃ x, b.evaluate "x" = .ok x := exists_of_isOk (by decide +kernel)
  have hy : b.evaluate "y" = .error (.noValue "y" (.unbound ["y"])) := by decide +kernel
  refine ⟨hb, ?_, ?_⟩
  · obtain ⟨hend, hresult⟩ := hops (op "x")
    obtain ⟨op', hop'⟩ := hend.succeeds.mpr fun text htext => List.mem_singleton.mp htext ▸ hx
    exact ⟨op', hop', (hresult op' hop').2.1, (hresult op' hop').2.2.1⟩
  · refine ((hcircuits _).1.fails _).mpr ⟨["x"], "y", ["z"], rfl, fun text htext => ?_, hy⟩
    exact List.mem_singleton.mp htext ▸ hx

end QuantumGates
