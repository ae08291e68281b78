-- Evaluations that need all parts of a formula. What an operation makes of parameters is a number
-- or a longer expression, and under such an evaluation the expression has a value only if the
-- parameters have one. Only a number equal to nought as a factor leaves the other factor out.
import QuantumGates.Proofs.Exact.NamedNumbers

namespace QuantumGates

/-- An exact evaluation by which a formula has a value only if its parts have one. -/
structure StrictEvaluation (R : Type) [ExactScalar R] extends ExactEvaluation R where
  of_negate {b : Bindings R} {f : Formula} {x : R} :
    value b (.negate f) = .ok x → ∃ y, value b f = .ok y
  of_binary {b : Bindings R} {o : Dyadic} {f g : Formula} {x : R} :
    value b (.binary o f g) = .ok x → (∃ y, value b f = .ok y) ∧ ∃ y, value b g = .ok y
  of_call {b : Bindings R} {fn : Fn} {f : Formula} {x : R} :
    value b (.call fn f) = .ok x → ∃ y, value b f = .ok y

section

variable {R : Type} [Scalar R] {b : Bindings R} {f g : Formula} {x : R}

theorem exists_of_valueByParts_negate (h : (Formula.negate f).valueByParts b = .ok x) :
    ∃ y, f.valueByParts b = .ok y := by
  unfold Formula.valueByParts at h
  cases hf : f.valueByParts b with
  | error reason =>
    rw [hf] at h
    cases h
  | ok y => exact ⟨y, rfl⟩

theorem exists_of_valueByParts_binary {o : Dyadic}
    (h : (Formula.binary o f g).valueByParts b = .ok x) :
    (∃ y, f.valueByParts b = .ok y) ∧ ∃ y, g.valueByParts b = .ok y := by
  unfold Formula.valueByParts at h
  obtain ⟨y, hy, h⟩ := bind_eq_ok h
  obtain ⟨z, hz, -⟩ := bind_eq_ok h
  exact ⟨⟨y, hy⟩, z, hz⟩

theorem exists_of_valueByParts_call {fn : Fn} (h : (Formula.call fn f).valueByParts b = .ok x) :
    ∃ y, f.valueByParts b = .ok y := by
  unfold Formula.valueByParts at h
  obtain ⟨y, hy, -⟩ := bind_eq_ok h
  exact ⟨y, hy⟩

end

/-- Evaluation part by part is strict. -/
noncomputable def NamedReal.strictEvaluation : StrictEvaluation NamedReal where
  toExactEvaluation := NamedReal.evaluation
  of_negate := exists_of_valueByParts_negate
  of_binary := exists_of_valueByParts_binary
  of_call := exists_of_valueByParts_call

/-! ## Literals -/

section

variable {R : Type} [ExactScalar R] {p q r : Param R}

theorem Param.isZero_literal_iff {x : R} : (Param.literal x).isZero = true ↔ x = 0 :=
  ExactScalar.equal_iff x 0

theorem Param.isLiteral_of_isNumber {n : R} (h : p.isNumber n = true) : p.isLiteral = true := by
  cases p with
  | literal x => rfl
  | expression s => cases h

/-- A quotient by a number is a number only of a number. -/
theorem Param.eq_literal_of_div {y z : R} (hy : y ≠ 0)
    (h : p.div (.literal y) = .ok (.literal z)) : ∃ x, p = .literal x ∧ z = x / y := by
  have hzero : ¬ (Param.literal y).isZero = true := fun h => hy (isZero_literal_iff.mp h)
  unfold Param.div at h
  rw [if_neg hzero] at h
  cases p with
  | literal x =>
    cases h
    exact ⟨x, rfl, rfl⟩
  | expression s =>
    simp only at h
    split at h
    · cases h
    · split at h
      · rename_i hp
        cases hp
      · cases h

/-- A function of a parameter is nought only at a number. -/
theorem Param.eq_literal_of_isZero_apply {name : String} {g : R → Except (Fault R) R}
    (h : p.apply name g = .ok r) (hr : r.isZero = true) : ∃ x, p = .literal x ∧ g x = .ok 0 := by
  cases p with
  | literal x =>
    unfold Param.apply at h
    simp only at h
    cases hg : g x with
    | error fault =>
      rw [hg] at h
      cases h
    | ok y =>
      rw [hg] at h
      cases h
      exact ⟨x, rfl, by rw [hg, isZero_literal_iff.mp hr]⟩
  | expression s =>
    cases h
    cases hr

/-- A product is the number nought only if a factor is. -/
theorem Param.isZero_of_mul (h : (p.mul q).isZero = true) : p.isZero = true ∨ q.isZero = true := by
  unfold Param.mul at h
  split at h
  · rename_i x y
    rw [isZero_literal_iff] at h
    have hreal : ExactScalar.real x * ExactScalar.real y = 0 := by
      rw [← ExactScalar.real_mul, h, ExactScalar.real_zero]
    rcases mul_eq_zero.mp hreal with hx | hy
    · exact .inl (isZero_literal_iff.mpr (ExactScalar.ext (by rw [hx, ExactScalar.real_zero])))
    · exact .inr (isZero_literal_iff.mpr (ExactScalar.ext (by rw [hy, ExactScalar.real_zero])))
  · split at h
    · rename_i hzero
      exact Bool.or_eq_true_iff.mp hzero
    · split at h
      · exact .inr h
      · split at h
        · exact .inl h
        · cases h

end

/-! ## What a parameter needs -/

variable {R : Type} [ExactScalar R] {S : StrictEvaluation R} {b : Bindings R}

/-- The parameter can be read, and it has a value only if all parameters of a list have one. -/
structure Param.Needs (S : StrictEvaluation R) (b : Bindings R) (p : Param R)
    (ps : List (Param R)) : Prop where
  readable : ∃ f, p.ReadsAs f
  needed {x : R} : p.HasValue S.toExactEvaluation b x →
    ∀ q ∈ ps, ∃ y, q.HasValue S.toExactEvaluation b y

/-- A parameter that can be read has no value if it cannot be evaluated. -/
theorem Param.ReadsAs.value_eq_ok_iff {E : ExactEvaluation R} {p : Param R} {f : Formula}
    (h : p.ReadsAs f) {x : R} : p.value (E.evaluate b) = .ok x ↔ p.HasValue E b x := by
  cases h with
  | literal =>
    constructor
    · rintro ⟨⟩
      exact .literal x
    · rintro ⟨⟩
      rfl
  | @expression s f hplain hread =>
    rw [(Param.ReadsAs.expression hplain hread).hasValue_iff]
    refine E.evaluate_eq_ok_iff.trans ⟨?_, fun hvalue => ⟨f, hread, hvalue⟩⟩
    rintro ⟨g, hread', hvalue⟩
    obtain rfl : f = g := Except.ok.inj (hread.symm.trans hread')
    exact hvalue

namespace Param.Needs

variable {p q r : Param R} {ps qs : List (Param R)}

theorem refl (h : ∃ f, p.ReadsAs f) : p.Needs S b [p] :=
  ⟨h, fun hx _ hq => List.mem_singleton.mp hq ▸ ⟨_, hx⟩⟩

/-- A number needs whatever has a value. -/
theorem literal (x : R) (h : ∀ q ∈ ps, ∃ y, q.HasValue S.toExactEvaluation b y) :
    (Param.literal x).Needs S b ps :=
  ⟨(ReadsAs.exists_literal S.toExactEvaluation x).imp fun _ hf => hf.1, fun _ => h⟩

/-- What a number needs has a value. -/
theorem needed_of_isLiteral (hp : p.Needs S b ps) (h : p.isLiteral = true) :
    ∀ q ∈ ps, ∃ y, q.HasValue S.toExactEvaluation b y := by
  cases p with
  | literal x => exact hp.needed (.literal x)
  | expression s => cases h

/-- A parameter that needs what another one needs, and more only if that has a value. -/
theorem append (hp : ∀ q ∈ ps, ∃ y, q.HasValue S.toExactEvaluation b y) (hq : q.Needs S b qs) :
    q.Needs S b (ps ++ qs) :=
  ⟨hq.readable, fun hx r hr => (List.mem_append.mp hr).elim (hp r) (hq.needed hx r)⟩

theorem swap (hp : p.Needs S b (ps ++ qs)) : p.Needs S b (qs ++ ps) :=
  ⟨hp.readable, fun hx r hr => hp.needed hx r
    (List.mem_append.mpr (List.mem_append.mp hr).symm)⟩

theorem neg (hp : p.Needs S b ps) : p.neg.Needs S b ps := by
  obtain ⟨f, hf⟩ := hp.readable
  cases p with
  | literal x => exact literal (-x) (hp.needed_of_isLiteral rfl)
  | expression s =>
    have hneg := hf.neg S.toExactEvaluation
    refine ⟨⟨_, hneg⟩, fun hx => ?_⟩
    obtain ⟨y, hy⟩ := S.of_negate (hneg.hasValue_iff.mp hx)
    exact hp.needed (hf.hasValue_iff.mpr hy)

/-- Two operands with a sign between them need what both need. -/
theorem joined {sign : String} {g : Sign} {o : Operator} {d : Dyadic} (hsign : Joins sign g o)
    (hmeans : ∀ f f', Meaning.binary f o f' = some (.value (.binary d f f')))
    (hp : p.Needs S b ps) (hq : q.Needs S b qs) :
    (Param.joined sign p q).Needs S b (ps ++ qs) := by
  obtain ⟨f, hf⟩ := hp.readable
  obtain ⟨f', hf'⟩ := hq.readable
  have hjoined := hf.joined S.toExactEvaluation hsign (hmeans f f') hf'
  refine ⟨⟨_, hjoined⟩, fun hx r hr => ?_⟩
  obtain ⟨⟨y, hy⟩, z, hz⟩ := S.of_binary (hjoined.hasValue_iff.mp hx)
  exact (List.mem_append.mp hr).elim (hp.needed (hf.hasValue_iff.mpr hy) r)
    (hq.needed (hf'.hasValue_iff.mpr hz) r)

/-- A product of factors that are not the number nought. -/
theorem mul (hp : p.Needs S b ps) (hq : q.Needs S b qs) (hp0 : ¬ p.isZero = true)
    (hq0 : ¬ q.isZero = true) : (p.mul q).Needs S b (ps ++ qs) := by
  unfold Param.mul
  split
  · exact literal _ fun r hr =>
      (List.mem_append.mp hr).elim (hp.needed_of_isLiteral rfl r) (hq.needed_of_isLiteral rfl r)
  · rw [if_neg (by simp [hp0, hq0])]
    split
    · exact hq.append (hp.needed_of_isLiteral (isLiteral_of_isNumber ‹_›))
    · split
      · exact (hp.append (hq.needed_of_isLiteral (isLiteral_of_isNumber ‹_›))).swap
      · exact hp.joined joins_star (fun _ _ => rfl) hq

/-- A quotient by a number that is not nought. -/
theorem div {y : R} (hp : p.Needs S b ps) (hy : y ≠ 0) :
    ∃ r, p.div (.literal y) = .ok r ∧ r.Needs S b ps := by
  have hzero : ¬ (Param.literal y).isZero = true := fun h => hy (isZero_literal_iff.mp h)
  unfold Param.div
  rw [if_neg hzero]
  split
  · exact ⟨_, rfl, literal _ (hp.needed_of_isLiteral rfl)⟩
  · refine ⟨_, rfl, ?_⟩
    split
    · exact hp
    · split
      · exact literal 0 (hp.needed_of_isLiteral (isLiteral_of_isNumber ‹_›))
      · have hdivisor : (Param.literal y).Needs S b [] := literal y fun _ hq => nomatch hq
        have hquotient := hp.joined joins_slash (fun _ _ => rfl) hdivisor
        rwa [List.append_nil] at hquotient

/-- A function that has a value everywhere. -/
theorem apply {name : String} {fn : Fn} {g : R → Except (Fault R) R} (hname : Calls name fn 1)
    (hg : ∀ x, ∃ y, g x = .ok y) (hp : p.Needs S b ps) :
    ∃ r, p.apply name g = .ok r ∧ r.Needs S b ps := by
  obtain ⟨f, hf⟩ := hp.readable
  cases p with
  | literal x =>
    obtain ⟨y, hy⟩ := hg x
    refine ⟨.literal y, ?_, literal y (hp.needed_of_isLiteral rfl)⟩
    unfold Param.apply
    simp only [hy]
    rfl
  | expression s =>
    have hcall := hf.call S.toExactEvaluation hname
    refine ⟨_, rfl, ⟨_, hcall⟩, fun hx => ?_⟩
    obtain ⟨y, hy⟩ := S.of_call (hcall.hasValue_iff.mp hx)
    exact hp.needed (hf.hasValue_iff.mpr hy)

theorem sin (hp : p.Needs S b ps) : ∃ r, p.sin = .ok r ∧ r.Needs S b ps := by
  have hname : Calls "sin" .sin 1 := calls_single (by decide)
  exact hp.apply hname fun x => (ExactScalar.sin?_eq x).imp fun _ hy => hy.1

theorem cos (hp : p.Needs S b ps) : ∃ r, p.cos = .ok r ∧ r.Needs S b ps := by
  have hname : Calls "cos" .cos 1 := calls_single (by decide)
  exact hp.apply hname fun x => (ExactScalar.cos?_eq x).imp fun _ hy => hy.1

end Param.Needs

end QuantumGates
