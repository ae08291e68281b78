-- The value of a parameter in exact arithmetic. What an operation makes of parameters with values
-- has the value of the operation on the numbers, whichever of them are expressions and whichever
-- shortcut is taken. So a computation on parameters and the same computation on their values run
-- side by side.
import QuantumGates.Proofs.Exact.Evaluation
import QuantumGates.Proofs.Expression.Computation

namespace QuantumGates

/-! ## Computations side by side -/

/-- Both computations have a result, and the results are related. -/
def BothOk {F A A' : Type} (r : A → A' → Prop) (m : Except F A) (m' : Except F A') : Prop :=
  ∃ a a', m = .ok a ∧ m' = .ok a' ∧ r a a'

namespace BothOk

variable {F A A' B B' : Type} {r : A → A' → Prop} {t : B → B' → Prop}

theorem ok {a : A} {a' : A'} (h : r a a') :
    BothOk r (.ok a : Except F A) (.ok a') := ⟨a, a', rfl, rfl, h⟩

/-- Related steps after related results. -/
theorem bind {m : Except F A} {m' : Except F A'} {f : A → Except F B} {f' : A' → Except F B'}
    (h : BothOk r m m') (hf : ∀ a a', r a a' → BothOk t (f a) (f' a')) :
    BothOk t (m >>= f) (m' >>= f') := by
  obtain ⟨a, a', rfl, rfl, ha⟩ := h
  exact hf a a' ha

end BothOk

variable {R : Type} [ExactScalar R] {E : ExactEvaluation R} {b : Bindings R}

/-! ## Readings -/

/-- The parameter is a plain expression that is read as the formula, or a number whose text is. -/
inductive Param.ReadsAs : Param R → Formula → Prop
  | literal {x : R} {f : Formula} : Formula.readWithin none (Param.literalText x) = .ok f →
    ReadsAs (.literal x) f
  | expression {s : String} {f : Formula} : IsPlainText s.toList →
    Formula.readWithin none s = .ok f → ReadsAs (.expression s) f

namespace Param.ReadsAs

variable {p q : Param R} {f g : Formula}

/-- A number is read as a formula with the number as its value. -/
theorem exists_literal (E : ExactEvaluation R) (x : R) :
    ∃ f, (Param.literal x).ReadsAs f ∧ ∀ b, E.value b f = .ok x := by
  obtain ⟨-, -, f, hread, hvalue⟩ := E.legible x
  exact ⟨f, .literal hread, hvalue⟩

/-- A parameter is written with what it is read as, as an operand and as an argument. -/
theorem written (E : ExactEvaluation R) (h : p.ReadsAs f) :
    ∃ t, Written Operand p.operand.toList t ∧ Written Expresses p.argument.toList t ∧
      t.meaning? = some (.value f) := by
  cases h with
  | @literal x f hread =>
    obtain ⟨hplain, hatomic, -⟩ := E.legible x
    obtain ⟨t, ht, hwritten⟩ := IsPlainExpression.written ⟨hplain, f, hread⟩
    exact ⟨t, hwritten.operand hatomic, hwritten, Formula.meaning?_of_readWithin ht hread⟩
  | expression hplain hread =>
    obtain ⟨t, ht, hwritten⟩ := IsPlainExpression.written ⟨hplain, f, hread⟩
    exact ⟨t, hwritten.bracketed, hwritten, Formula.meaning?_of_readWithin ht hread⟩

/-- Two operands with a sign between them are read as the operation. -/
theorem joined (E : ExactEvaluation R) {sign : String} {i : Sign} {o : Operator} {d : Dyadic}
    (hsign : Joins sign i o) (hmeans : Meaning.binary f o g = some (.value (.binary d f g)))
    (hp : p.ReadsAs f) (hq : q.ReadsAs g) : (Param.joined sign p q).ReadsAs (.binary d f g) := by
  obtain ⟨t, hwritten, -, hf⟩ := hp.written E
  obtain ⟨u, hwritten', -, hg⟩ := hq.written E
  have htext := toList_joined p.operand sign q.operand
  have htree := (hwritten.join hsign hwritten').isPlainExpression_brackets htext
  exact .expression htree.1.1
    (IsPlainExpression.readWithin htree (Node.meaning?_between hmeans hf hg))

theorem neg (E : ExactEvaluation R) {s : String} (h : (Param.expression s : Param R).ReadsAs f) :
    (Param.expression s : Param R).neg.ReadsAs (.negate f) := by
  obtain ⟨t, hwritten, -, hf⟩ := h.written E
  have htext := toList_negated (Param.expression s : Param R).operand
  have htree := hwritten.negate.isPlainExpression_brackets htext
  exact .expression htree.1.1 (IsPlainExpression.readWithin htree (Node.meaning?_negated hf))

theorem call (E : ExactEvaluation R) {name s : String} {fn : Fn} (hname : Calls name fn 1)
    (h : (Param.expression s : Param R).ReadsAs f) :
    (Param.expression (name ++ "(" ++ s ++ ")") : Param R).ReadsAs (.call fn f) := by
  obtain ⟨t, -, hwritten, hf⟩ := h.written E
  have htext := toList_call name s
  have htree := Written.isPlainExpression_call htext (hwritten.call hname)
  exact .expression htree.1.1 (IsPlainExpression.readWithin htree (Node.meaning?_called hname hf))

end Param.ReadsAs

/-! ## Values -/

/-- The parameter is the number `x`, or a plain expression with the value `x`. -/
inductive Param.HasValue (E : ExactEvaluation R) (b : Bindings R) : Param R → R → Prop
  | literal (x : R) : HasValue E b (.literal x) x
  | expression {s : String} {f : Formula} {x : R} : IsPlainText s.toList →
    Formula.readWithin none s = .ok f → E.value b f = .ok x → HasValue E b (.expression s) x

/-- The value of a parameter is that of what it is read as. -/
theorem Param.ReadsAs.hasValue_iff {p : Param R} {f : Formula} (h : p.ReadsAs f) {x : R} :
    p.HasValue E b x ↔ E.value b f = .ok x := by
  cases h with
  | @literal y f hread =>
    obtain ⟨-, -, g, hread', hvalue⟩ := E.legible y
    obtain rfl : f = g := Except.ok.inj (hread.symm.trans hread')
    rw [hvalue b]
    constructor
    · rintro ⟨⟩
      rfl
    · rintro ⟨⟩
      exact .literal _
  | @expression s f hplain hread =>
    constructor
    · rintro ⟨⟩
      rename_i g _ hread' hvalue
      obtain rfl : f = g := Except.ok.inj (hread.symm.trans hread')
      exact hvalue
    · exact .expression hplain hread

namespace Param.HasValue

variable {p q : Param R} {x y z : R}

/-- A parameter with a value is read as a formula that has the value. -/
theorem reads (h : p.HasValue E b x) : ∃ f, p.ReadsAs f ∧ E.value b f = .ok x := by
  cases h with
  | literal =>
    obtain ⟨f, hf, hvalue⟩ := Param.ReadsAs.exists_literal E x
    exact ⟨f, hf, hvalue b⟩
  | expression hplain hread hvalue => exact ⟨_, .expression hplain hread, hvalue⟩

/-- A number equal to a given one has it as value. -/
theorem eq_of_isNumber {n : R} (h : p.HasValue E b x) (hn : p.isNumber n = true) : x = n := by
  cases h with
  | literal => exact (ExactScalar.equal_iff x n).mp hn
  | expression => cases hn

/-- Two operands with a sign between them have the value of the operation. -/
theorem joined {sign : String} {g : Sign} {o : Operator} {d : Dyadic} (hsign : Joins sign g o)
    (hmeans : ∀ f f', Meaning.binary f o f' = some (.value (.binary d f f')))
    (hvalue : ∀ f f', E.value b f = .ok x → E.value b f' = .ok y →
      E.value b (.binary d f f') = .ok z)
    (hp : p.HasValue E b x) (hq : q.HasValue E b y) : (Param.joined sign p q).HasValue E b z := by
  obtain ⟨f, hf, hx⟩ := hp.reads
  obtain ⟨f', hf', hy⟩ := hq.reads
  exact (hf.joined E hsign (hmeans f f') hf').hasValue_iff.mpr (hvalue f f' hx hy)

theorem neg (hp : p.HasValue E b x) : p.neg.HasValue E b (-x) := by
  cases hp with
  | literal => exact .literal (-x)
  | expression hplain hread hx =>
    exact (Param.ReadsAs.neg E (.expression hplain hread)).hasValue_iff.mpr (E.negate hx)

/-- A function of a parameter, the number being in the domain of the function. -/
theorem apply {name : String} {fn : Fn} {g : R → Except (Fault R) R} (hname : Calls name fn 1)
    (hvalue : ∀ f, E.value b f = .ok x → g x = .ok y → E.value b (.call fn f) = .ok y)
    (hp : p.HasValue E b x) (hy : g x = .ok y) :
    ∃ q, p.apply name g = .ok q ∧ q.HasValue E b y := by
  cases hp with
  | literal =>
    refine ⟨.literal y, ?_, .literal y⟩
    unfold Param.apply
    simp only [hy]
    rfl
  | @expression s f _ hplain hread hx =>
    have hcall := Param.ReadsAs.call E hname (.expression hplain hread)
    exact ⟨_, rfl, hcall.hasValue_iff.mpr (hvalue f hx hy)⟩

/-! ## Arithmetic with shortcuts -/

theorem add (hp : p.HasValue E b x) (hq : q.HasValue E b y) : (p.add q).HasValue E b (x + y) := by
  unfold Param.add
  split
  · cases hp
    cases hq
    exact .literal _
  · split
    · have hsum : x + y = y := ExactScalar.ext (by simp [hp.eq_of_isNumber ‹_›])
      rwa [hsum]
    · split
      · have hsum : x + y = x := ExactScalar.ext (by simp [hq.eq_of_isNumber ‹_›])
        rwa [hsum]
      · exact hp.joined joins_plus (fun _ _ => rfl) (fun _ _ => E.add) hq

theorem sub (hp : p.HasValue E b x) (hq : q.HasValue E b y) : (p.sub q).HasValue E b (x - y) := by
  unfold Param.sub
  split
  · cases hp
    cases hq
    exact .literal _
  · split
    · have hdifference : x - y = x := ExactScalar.ext (by simp [hq.eq_of_isNumber ‹_›])
      rwa [hdifference]
    · split
      · have hdifference : x - y = -y := ExactScalar.ext (by simp [hp.eq_of_isNumber ‹_›])
        rw [hdifference]
        exact hq.neg
      · exact hp.joined joins_minus (fun _ _ => rfl) (fun _ _ => E.sub) hq

theorem mul (hp : p.HasValue E b x) (hq : q.HasValue E b y) : (p.mul q).HasValue E b (x * y) := by
  unfold Param.mul
  split
  · cases hp
    cases hq
    exact .literal _
  · split
    · have hproduct : x * y = 0 := by
        rcases Bool.or_eq_true_iff.mp ‹_› with hzero | hzero
        · exact ExactScalar.ext (by simp [hp.eq_of_isNumber hzero])
        · exact ExactScalar.ext (by simp [hq.eq_of_isNumber hzero])
      rw [hproduct]
      exact .literal 0
    · split
      · have hproduct : x * y = y := ExactScalar.ext
          (by simp [hp.eq_of_isNumber ‹_›, ExactScalar.real_one])
        rwa [hproduct]
      · split
        · have hproduct : x * y = x := ExactScalar.ext
            (by simp [hq.eq_of_isNumber ‹_›, ExactScalar.real_one])
          rwa [hproduct]
        · exact hp.joined joins_star (fun _ _ => rfl) (fun _ _ => E.mul) hq

/-- A quotient with a divisor that is not nought. -/
theorem div (hp : p.HasValue E b x) (hq : q.HasValue E b y) (hy : y ≠ 0) :
    ∃ r, p.div q = .ok r ∧ r.HasValue E b (x / y) := by
  have hzero : ¬ q.isZero = true := fun h => hy (hq.eq_of_isNumber h)
  unfold Param.div
  rw [if_neg hzero]
  split
  · cases hp
    cases hq
    exact ⟨_, rfl, .literal _⟩
  · refine ⟨_, rfl, ?_⟩
    split
    · have hquotient : x / y = x := ExactScalar.ext
        (by simp [hq.eq_of_isNumber ‹_›, ExactScalar.real_one])
      rwa [hquotient]
    · split
      · have hquotient : x / y = 0 := ExactScalar.ext (by simp [hp.eq_of_isNumber ‹_›])
        rw [hquotient]
        exact .literal 0
      · exact hp.joined joins_slash (fun _ _ => rfl) (fun _ _ hf hg => E.div hf hg hy) hq

end Param.HasValue

/-! ## Parameters and their values -/

/-- The parameter has a value, and `p'` is the number that it is. -/
def Param.EvaluatesTo (E : ExactEvaluation R) (b : Bindings R) (p p' : Param R) : Prop :=
  ∃ x, p.HasValue E b x ∧ p' = .literal x

namespace Param.EvaluatesTo

variable {p p' q q' : Param R}

theorem literal (x : R) : (Param.literal x).EvaluatesTo E b (.literal x) := ⟨x, .literal x, rfl⟩

theorem neg (hp : p.EvaluatesTo E b p') : p.neg.EvaluatesTo E b p'.neg := by
  obtain ⟨x, hx, rfl⟩ := hp
  exact ⟨-x, hx.neg, rfl⟩

theorem add (hp : p.EvaluatesTo E b p') (hq : q.EvaluatesTo E b q') :
    (p.add q).EvaluatesTo E b (p'.add q') := by
  obtain ⟨x, hx, rfl⟩ := hp
  obtain ⟨y, hy, rfl⟩ := hq
  exact ⟨x + y, hx.add hy, rfl⟩

theorem sub (hp : p.EvaluatesTo E b p') (hq : q.EvaluatesTo E b q') :
    (p.sub q).EvaluatesTo E b (p'.sub q') := by
  obtain ⟨x, hx, rfl⟩ := hp
  obtain ⟨y, hy, rfl⟩ := hq
  exact ⟨x - y, hx.sub hy, rfl⟩

theorem mul (hp : p.EvaluatesTo E b p') (hq : q.EvaluatesTo E b q') :
    (p.mul q).EvaluatesTo E b (p'.mul q') := by
  obtain ⟨x, hx, rfl⟩ := hp
  obtain ⟨y, hy, rfl⟩ := hq
  exact ⟨x * y, hx.mul hy, rfl⟩

/-- The quotient by a number that is not nought. -/
theorem div {y : R} (hp : p.EvaluatesTo E b p') (hy : y ≠ 0) :
    BothOk (Param.EvaluatesTo E b) (p.div (.literal y)) (p'.div (.literal y)) := by
  obtain ⟨x, hx, rfl⟩ := hp
  obtain ⟨r, hr, hvalue⟩ := hx.div (.literal y) hy
  have hzero : ¬ (Param.literal y).isZero = true := fun h => hy ((ExactScalar.equal_iff y 0).mp h)
  refine ⟨r, .literal (x / y), hr, ?_, x / y, hvalue, rfl⟩
  unfold Param.div
  rw [if_neg hzero]

/-- A function that has a value everywhere. -/
theorem apply {name : String} {fn : Fn} {g : R → Except (Fault R) R} (hname : Calls name fn 1)
    (hvalue : ∀ f x y, E.value b f = .ok x → g x = .ok y → E.value b (.call fn f) = .ok y)
    (hg : ∀ x, ∃ y, g x = .ok y) (hp : p.EvaluatesTo E b p') :
    BothOk (Param.EvaluatesTo E b) (p.apply name g) (p'.apply name g) := by
  obtain ⟨x, hx, rfl⟩ := hp
  obtain ⟨y, hy⟩ := hg x
  obtain ⟨r, hr, hry⟩ := hx.apply hname (fun f => hvalue f x y) hy
  refine ⟨r, .literal y, hr, ?_, y, hry, rfl⟩
  unfold Param.apply
  simp only [hy]
  rfl

theorem sin (hp : p.EvaluatesTo E b p') : BothOk (Param.EvaluatesTo E b) p.sin p'.sin := by
  have hname : Calls "sin" .sin 1 := calls_single (by decide)
  exact hp.apply hname (fun _ _ _ => E.sin) fun x =>
    (ExactScalar.sin?_eq x).imp fun _ hy => hy.1

theorem cos (hp : p.EvaluatesTo E b p') : BothOk (Param.EvaluatesTo E b) p.cos p'.cos := by
  have hname : Calls "cos" .cos 1 := calls_single (by decide)
  exact hp.apply hname (fun _ _ _ => E.cos) fun x =>
    (ExactScalar.cos?_eq x).imp fun _ hy => hy.1

/-- A parameter with a value is substituted. -/
theorem substitute_eq_ok (h : p.EvaluatesTo E b p') :
    p.substitute (E.evaluate b) = .ok p' := by
  obtain ⟨x, hx, rfl⟩ := h
  cases hx with
  | literal => rfl
  | @expression s f x _ hread hvalue =>
    have heval : E.evaluate b s = .ok x := E.evaluate_eq_ok_iff.mpr ⟨f, hread, hvalue⟩
    show (E.evaluate b s).map Param.literal = _
    rw [heval]
    rfl

/-- What a plain parameter is substituted by is its value. -/
theorem of_substitute (hplain : ∀ s, p = .expression s → IsPlainText s.toList)
    (h : p.substitute (E.evaluate b) = .ok p') : p.EvaluatesTo E b p' := by
  cases p with
  | literal x =>
    cases h
    exact literal x
  | expression s =>
    unfold Param.substitute Param.value at h
    simp only at h
    cases heval : E.evaluate b s with
    | error fault =>
      rw [heval] at h
      cases h
    | ok x =>
      rw [heval] at h
      cases h
      obtain ⟨f, hread, hvalue⟩ := E.evaluate_eq_ok_iff.mp heval
      exact ⟨x, .expression (hplain s rfl) hread hvalue, rfl⟩

theorem isPlainExpression {s : String} (h : (Param.expression s : Param R).EvaluatesTo E b p') :
    IsPlainExpression s := by
  obtain ⟨x, hx, -⟩ := h
  cases hx with
  | expression hplain hread => exact ⟨hplain, _, hread⟩

end Param.EvaluatesTo

end QuantumGates
