-- Symbolic arithmetic in exact numbers. Numbers are exact if they stand for real numbers and every
-- operation on them is that on the real numbers. An exact evaluation gives a formula whose parts
-- have values the value of the operation on them, and reads the text of a number as the number. It
-- may give a value to other formulas too, as one does that cancels variables without a value.
import QuantumGates.Proofs.Exact.Numbers
import QuantumGates.Bindings
import QuantumGates.Proofs.Expression.Written

namespace QuantumGates

/-! ## Exact numbers -/

/-- Numbers without rounding and without a largest one. -/
class ExactScalar (R : Type) extends Scalar R where
  /-- The real number that a number is. -/
  real : R → ℝ
  real_injective : Function.Injective real
  real_zero : real 0 = 0
  real_one : real 1 = 1
  real_add (x y : R) : real (x + y) = real x + real y
  real_sub (x y : R) : real (x - y) = real x - real y
  real_mul (x y : R) : real (x * y) = real x * real y
  real_div (x y : R) : real (x / y) = real x / real y
  real_neg (x : R) : real (-x) = -real x
  real_whole (n : ℕ) : real (whole n) = n
  real_pi : real pi = Real.pi
  sin?_eq (x : R) : ∃ y, sin? x = .ok y ∧ real y = Real.sin (real x)
  cos?_eq (x : R) : ∃ y, cos? x = .ok y ∧ real y = Real.cos (real x)
  sqrt?_eq (x : R) : 0 ≤ real x → ∃ y, sqrt? x = .ok y ∧ real y = √(real x)
  equal_iff (x y : R) : equal x y = true ↔ x = y
  isFinite_eq (x : R) : isFinite x = true

namespace ExactScalar

attribute [simp] real_zero real_one real_add real_sub real_mul real_div real_neg real_whole

variable {R : Type} [ExactScalar R] {x y : R}

theorem ext (h : real x = real y) : x = y := real_injective h

theorem whole_ne_zero {n : ℕ} (hn : n ≠ 0) : (Scalar.whole n : R) ≠ 0 := by
  intro h
  have hreal := congrArg real h
  rw [real_whole, real_zero] at hreal
  exact hn (Nat.cast_eq_zero.mp hreal)

end ExactScalar

/-! ## Exact evaluations -/

/-- The value of formulas in exact numbers under tables of variables. -/
structure ExactEvaluation (R : Type) [ExactScalar R] where
  value : Bindings R → Formula → Except NoValue R
  bound {b : Bindings R} {name : String} {x : R} :
    b.get? name = some x → value b (.var name) = .ok x
  negate {b : Bindings R} {f : Formula} {x : R} :
    value b f = .ok x → value b (.negate f) = .ok (-x)
  add {b : Bindings R} {f g : Formula} {x y : R} :
    value b f = .ok x → value b g = .ok y → value b (.binary .add f g) = .ok (x + y)
  sub {b : Bindings R} {f g : Formula} {x y : R} :
    value b f = .ok x → value b g = .ok y → value b (.binary .sub f g) = .ok (x - y)
  mul {b : Bindings R} {f g : Formula} {x y : R} :
    value b f = .ok x → value b g = .ok y → value b (.binary .mul f g) = .ok (x * y)
  div {b : Bindings R} {f g : Formula} {x y : R} :
    value b f = .ok x → value b g = .ok y → y ≠ 0 → value b (.binary .div f g) = .ok (x / y)
  sin {b : Bindings R} {f : Formula} {x y : R} :
    value b f = .ok x → Scalar.sin? x = .ok y → value b (.call .sin f) = .ok y
  cos {b : Bindings R} {f : Formula} {x y : R} :
    value b f = .ok x → Scalar.cos? x = .ok y → value b (.call .cos f) = .ok y
  /-- The text of a number is one operand, and it is read as the number. -/
  legible (x : R) : IsPlainText (Param.literalText x).toList ∧
    isAtomic (Param.literalText x) = true ∧
      ∃ f, Formula.readWithin none (Param.literalText x) = .ok f ∧ ∀ b, value b f = .ok x

/-- The value of a text, its brackets nested without a limit. -/
def ExactEvaluation.evaluate {R : Type} [ExactScalar R] (E : ExactEvaluation R) (b : Bindings R)
    (text : String) : Except (Fault R) R :=
  match (Formula.readWithin none text).bind (E.value b) with
  | .ok x => .ok x
  | .error reason => .error (.noValue text reason)

theorem ExactEvaluation.evaluate_eq_ok_iff {R : Type} [ExactScalar R] {E : ExactEvaluation R}
    {b : Bindings R} {text : String} {x : R} :
    E.evaluate b text = .ok x ↔
      ∃ f, Formula.readWithin none text = .ok f ∧ E.value b f = .ok x := by
  unfold evaluate
  cases hread : Formula.readWithin none text with
  | error reason => simp [Except.bind]
  | ok f =>
    cases hvalue : E.value b f with
    | error reason => simp [Except.bind, hvalue]
    | ok y => simp [Except.bind, hvalue]

/-- A text without a value is named in the fault. -/
theorem ExactEvaluation.eq_noValue_of_evaluate {R : Type} [ExactScalar R] {E : ExactEvaluation R}
    {b : Bindings R} {text : String} {fault : Fault R} (h : E.evaluate b text = .error fault) :
    ∃ reason, fault = .noValue text reason := by
  unfold evaluate at h
  split at h
  · cases h
  · cases h
    exact ⟨_, rfl⟩

/-! ## What a text is read as -/

theorem Node.meaning?_negated {t : Node} {f : Formula} (hf : t.meaning? = some (.value f)) :
    (Node.mk .unary [.leaf (.operator .negative), t]).meaning? = some (.value (.negate f)) := by
  rw [Node.meaning?_mk, Node.meanings?_cons rfl (Node.meanings?_cons hf rfl)]
  rfl

theorem Node.meaning?_between {t u : Node} {f g : Formula} {o : Operator} {d : Dyadic}
    (hmeans : Meaning.binary f o g = some (.value (.binary d f g)))
    (hf : t.meaning? = some (.value f)) (hg : u.meaning? = some (.value g)) :
    (Node.mk .binary [t, .leaf (.operator o), u]).meaning? = some (.value (.binary d f g)) := by
  rw [Node.meaning?_mk, Node.meanings?_cons hf (Node.meanings?_cons rfl
    (Node.meanings?_cons hg rfl))]
  exact hmeans

theorem Node.meaning?_called {t : Node} {f : Formula} {name : String} {fn : Fn}
    (hname : Calls name fn 1) (hf : t.meaning? = some (.value f)) :
    (Node.mk (.call false) [.leaf (.name name), t]).meaning? = some (.value (.call fn f)) := by
  rw [Node.meaning?_mk, Node.meanings?_cons hname.meaning? (Node.meanings?_cons hf rfl)]
  show (if fn.takes 1 then some (Meaning.value (.call fn f)) else none) = _
  rw [hname.takes]
  rfl

/-- The formula that a text is read as is the meaning of its tree. -/
theorem Formula.meaning?_of_readWithin {text : String} {t : Node} {f : Formula}
    (ht : Node.ofText? text = some t) (h : Formula.readWithin none text = .ok f) :
    t.meaning? = some (.value f) := by
  unfold Node.ofText? at ht
  obtain ⟨ts, hwords, htree⟩ := Option.bind_eq_some_iff.mp ht
  obtain ⟨us, -, node, hus, -, -, -, hnode, hmeaning⟩ := readWithin_eq_ok_iff.mp h
  obtain rfl := Option.some.inj (hwords.symm.trans hus)
  obtain rfl := Option.some.inj (htree.symm.trans hnode)
  exact hmeaning

theorem IsPlainExpression.readWithin {text : String} {t : Node} {f : Formula}
    (h : IsPlainExpression text ∧ Node.ofText? text = some t)
    (hf : t.meaning? = some (.value f)) : Formula.readWithin none text = .ok f := by
  obtain ⟨⟨-, g, hread⟩, ht⟩ := h
  have hg := Formula.meaning?_of_readWithin ht hread
  rw [hf] at hg
  cases hg
  exact hread

end QuantumGates
