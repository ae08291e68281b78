-- The real numbers that parameters in doubles stand for. A finite double is a real number, and the
-- formula of an expression has a value by the rules of arithmetic. What an operation makes of
-- parameters with values has the value of the operation on them, whichever of them are expressions
-- and whichever shortcut is taken; only two numbers are combined as doubles are.
import QuantumGates.Proofs.Exact.Evaluation
import QuantumGates.Proofs.Expression.Computation
import QuantumGates.Proofs.Number.DoubleValue

namespace QuantumGates

/-! ## Real values -/

/-- The formula has a real value if the variables are what the table says. A decimal number stands
for the double that it rounds to, and `known` says the values of other formulas, such as powers and
calls of functions. -/
inductive Formula.Denotes (known : Formula → ℝ → Prop) (b : Bindings Float) : Formula → ℝ → Prop
  | other {f : Formula} {v : ℝ} : known f v → Denotes known b f v
  | whole (n : ℕ) : Denotes known b (.whole n) n
  | decimal {d : Decimal} {x : Float} : x.isFinite = true → d.RoundsTo x →
    Denotes known b (.decimal d) (Double.magnitude x)
  | pi : Denotes known b (.constant .pi) Real.pi
  | var {name : String} {x : Float} : b.get? name = some x → x.isFinite = true →
    Denotes known b (.var name) (Double.real x)
  | negate {f : Formula} {v : ℝ} : Denotes known b f v → Denotes known b (.negate f) (-v)
  | add {f g : Formula} {v w : ℝ} : Denotes known b f v → Denotes known b g w →
    Denotes known b (.binary .add f g) (v + w)
  | sub {f g : Formula} {v w : ℝ} : Denotes known b f v → Denotes known b g w →
    Denotes known b (.binary .sub f g) (v - w)
  | mul {f g : Formula} {v w : ℝ} : Denotes known b f v → Denotes known b g w →
    Denotes known b (.binary .mul f g) (v * w)
  | div {f g : Formula} {v w : ℝ} : Denotes known b f v → Denotes known b g w → w ≠ 0 →
    Denotes known b (.binary .div f g) (v / w)

/-- The parameter is a finite number, or a plain expression with a real value, its brackets nested
within a limit if there is one. -/
inductive Param.Denotes (known : Formula → ℝ → Prop) (b : Bindings Float) (limit : Option ℕ) :
    Param Float → ℝ → Prop
  | literal {x : Float} : x.isFinite = true → Denotes known b limit (.literal x) (Double.real x)
  | expression {s : String} {f : Formula} {v : ℝ} : IsPlainText s.toList →
    Formula.readWithin limit s = .ok f → f.Denotes known b v →
    Denotes known b limit (.expression s) v

/-- How deep the brackets of a parameter are nested; a number is a call. -/
def Param.nesting : Param Float → ℕ
  | literal _ => 1
  | expression s => nestingOf s

/-- The parameter has the value, in brackets that are nested at most two deeper than `n`, and the
program reads it so if they are nested within its limit. -/
structure Param.ComesTo (known : Formula → ℝ → Prop) (b : Bindings Float) (n : ℕ)
    (p : Param Float) (v : ℝ) : Prop where
  denotes : p.Denotes known b none v
  nested : p.nesting ≤ n + 2
  read : p.nesting ≤ deepestBracket → p.Denotes known b (some deepestBracket) v

/-- The operation is one of arithmetic, that on doubles and that on real numbers. -/
inductive Binary.IsArithmetic : Binary → (Float → Float → Float) → (ℝ → ℝ → ℝ) → Prop
  | add : IsArithmetic .add (· + ·) (· + ·)
  | sub : IsArithmetic .sub (· - ·) (· - ·)
  | mul : IsArithmetic .mul (· * ·) (· * ·)
  | div : IsArithmetic .div (· / ·) (· / ·)

/-- The parameters are not two numbers, or the operation on these is exact. -/
def Param.CombineExactly (f : Float → Float → Float) (g : ℝ → ℝ → ℝ) :
    Param Float → Param Float → Prop
  | literal x, literal y =>
    (f x y).isFinite = true ∧ Double.real (f x y) = g (Double.real x) (Double.real y)
  | _, _ => True

section

variable {known : Formula → ℝ → Prop} {b : Bindings Float} {limit : Option ℕ}
  {p q r : Param Float} {v w u : ℝ} {n : ℕ}

/-! ## Numbers -/

theorem isNaN_of_isFinite {x : Float} (h : x.isFinite = true) : x.isNaN = false := by
  rw [isFinite_eq, Bool.and_eq_true, Bool.not_eq_true'] at h
  exact h.1

theorem IsMagnitude.denotes {x : Float} {t : Node} (h : IsMagnitude x t) (hx : x.isFinite = true) :
    ∃ f, t.meaning? = some (.value f) ∧ f.Denotes known b (Double.magnitude x) := by
  cases h with
  | infinite hinf =>
    rw [isFinite_eq, hinf, Bool.not_true, Bool.and_false] at hx
    cases hx
  | finite _ hd => exact ⟨_, rfl, .decimal hx hd⟩

/-- The tree of a finite number has its value. -/
theorem IsConstant.denotes {x : Float} {t : Node} (h : IsConstant x t) (hx : x.isFinite = true) :
    ∃ f, t.meaning? = some (.value f) ∧ f.Denotes known b (Double.real x) := by
  unfold Double.real
  cases h with
  | undefined hnan =>
    rw [isNaN_of_isFinite hx] at hnan
    cases hnan
  | positive _ hminus hmagnitude =>
    rw [hminus]
    exact hmagnitude.denotes hx
  | negative _ hminus hmagnitude =>
    rw [hminus]
    obtain ⟨f, hf, hvalue⟩ : ∃ f : Formula, _ ∧ f.Denotes known b (Double.magnitude x) :=
      hmagnitude.denotes hx
    exact ⟨_, Node.meaning?_negated hf, hvalue.negate⟩

theorem Param.ComesTo.mono {m : ℕ} (h : p.ComesTo known b m v) (hmn : m ≤ n) :
    p.ComesTo known b n v :=
  ⟨h.denotes, h.nested.trans (Nat.add_le_add_right hmn 2), h.read⟩

namespace Param.Denotes

/-- A number equal to nought has the value nought. -/
theorem eq_zero (h : p.Denotes known b limit v) (hp : p.isZero = true) : v = 0 := by
  cases h with
  | literal => exact Double.real_of_beq_zero hp
  | expression => cases hp

theorem eq_one (h : p.Denotes known b limit v) (hp : p.isOne = true) : v = 1 := by
  cases h with
  | literal => exact Double.real_of_beq_one hp
  | expression => cases hp

/-! ## Limits -/

theorem within (h : p.Denotes known b none v) (hn : p.nesting ≤ n) :
    p.Denotes known b (some n) v := by
  cases h with
  | literal hx => exact .literal hx
  | expression hplain hread hvalue =>
    refine .expression hplain ?_ hvalue
    rw [Formula.readWithin_some n hread]
    exact if_pos hn

theorem comesTo (h : p.Denotes known b none v) (hn : p.nesting ≤ n + 2) :
    p.ComesTo known b n v := ⟨h, hn, h.within⟩

/-! ## Operands -/

/-- The tree and the nesting of a parameter as an operand. -/
theorem operand (h : p.Denotes known b none v) :
    ∃ t f n, Written Operand p.operand.toList t ∧ t.meaning? = some (.value f) ∧
      f.Denotes known b v ∧ NestedTo n p.operand.toList ∧ n ≤ p.nesting + 1 := by
  cases h with
  | literal hx =>
    obtain ⟨t, ht, hwritten⟩ := exists_constant _
    obtain ⟨f, hf, hvalue⟩ := ht.denotes hx
    obtain ⟨n, hn, hnested⟩ := exists_nestedTo (isNaN_of_isFinite hx)
    exact ⟨t, f, n, hwritten, hf, hvalue, hnested, hn⟩
  | @expression s f _ hplain hread hvalue =>
    have hexpression : IsPlainExpression s := ⟨hplain, f, hread⟩
    obtain ⟨t, ht, hwritten⟩ := hexpression.written
    obtain ⟨n, hnested, -, hn⟩ := hexpression.operand_nestedTo
    exact ⟨t, f, n, hwritten.bracketed, Formula.meaning?_of_readWithin ht hread, hvalue,
      hnested, hn⟩

/-- Two operands with a sign between them are nested one deeper than they are. -/
theorem joined_nesting {sign : String} {g : Sign} {o : Operator} {t t' : Node} {m : ℕ}
    (hsign : Joins sign g o) (hg : Balanced [.sign g]) (hp : Written Operand p.operand.toList t)
    (hq : Written Operand q.operand.toList t') (hm : NestedTo m p.operand.toList)
    (hn : NestedTo n q.operand.toList) : (Param.joined sign p q).nesting = max m n + 1 := by
  have htext := toList_joined p.operand sign q.operand
  have htree := (hp.join hsign hq).isPlainExpression_brackets htext
  exact (hm.join hsign hg hn).nesting_brackets htree.1.1 htext

/-- Two operands with a sign between them have the value of the operation. -/
theorem joined {sign : String} {g : Sign} {o : Operator} {d : Dyadic} (hsign : Joins sign g o)
    (hg : Balanced [.sign g])
    (hmeans : ∀ f f', Meaning.binary f o f' = some (.value (.binary d f f')))
    (hvalue : ∀ f f', f.Denotes known b v → f'.Denotes known b w →
      (Formula.binary d f f').Denotes known b u)
    (hp : p.Denotes known b none v) (hq : q.Denotes known b none w) :
    (Param.joined sign p q).ComesTo known b (max p.nesting q.nesting) u := by
  obtain ⟨t, f, m, hwritten, hf, hv, hm, hmp⟩ := hp.operand
  obtain ⟨t', f', n, hwritten', hf', hw, hn, hnq⟩ := hq.operand
  have htext := toList_joined p.operand sign q.operand
  have htree := (hwritten.join hsign hwritten').isPlainExpression_brackets htext
  have hmeaning := Node.meaning?_between (hmeans f f') hf hf'
  refine comesTo (.expression htree.1.1 (IsPlainExpression.readWithin htree hmeaning)
    (hvalue f f' hv hw)) ?_
  have hnesting := joined_nesting hsign hg hwritten hwritten' hm hn
  omega

theorem neg (hp : p.Denotes known b none v) : p.neg.ComesTo known b p.nesting (-v) := by
  obtain ⟨t, f, n, hwritten, hf, hv, hn, hnp⟩ := hp.operand
  cases hp with
  | @literal x hx =>
    have hvalue : (Param.literal (-x)).Denotes known b none (Double.real (-x)) :=
      .literal (Double.isFinite_neg hx)
    rw [Double.real_neg hx] at hvalue
    exact comesTo hvalue (Nat.le_add_right 1 2)
  | @expression s _ _ _ _ _ =>
    have htext := toList_negated (Param.expression s : Param Float).operand
    have htree := hwritten.negate.isPlainExpression_brackets htext
    refine comesTo (.expression htree.1.1 (IsPlainExpression.readWithin htree
      (Node.meaning?_negated hf)) hv.negate) ?_
    have hnesting : (Param.expression s).neg.nesting = n + 1 :=
      hn.negate.nesting_brackets htree.1.1 htext
    omega

/-! ## Arithmetic with shortcuts -/

/-- An operand as the result of an operation. -/
theorem kept (h : p.Denotes known b none v) (hn : p.nesting ≤ n) : p.ComesTo known b n v :=
  h.comesTo (hn.trans (Nat.le_add_right n 2))

theorem nought : (Param.literal 0 : Param Float).ComesTo known b n 0 := by
  have hzero : Double.real 0.0 = 0 := Double.real_of_beq_zero (by decide)
  have hvalue : (Param.literal 0.0).Denotes known b none (Double.real 0.0) :=
    .literal (by decide)
  rw [hzero] at hvalue
  exact comesTo hvalue (Nat.le_add_left 1 (n + 1))

/-- Two numbers that are combined exactly. -/
theorem combined {f : Float → Float → Float} {g : ℝ → ℝ → ℝ} {x y : Float}
    (h : CombineExactly f g (.literal x) (.literal y)) :
    (Param.literal (f x y)).ComesTo known b n (g (Double.real x) (Double.real y)) := by
  rw [← h.2]
  exact comesTo (.literal h.1) (Nat.le_add_left 1 (n + 1))

theorem add (hp : p.Denotes known b none v) (hq : q.Denotes known b none w)
    (hexact : CombineExactly (· + ·) (· + ·) p q) :
    (p.add q).ComesTo known b (max p.nesting q.nesting) (v + w) := by
  unfold Param.add
  split
  · cases hp
    cases hq
    exact combined hexact
  · split
    · rw [hp.eq_zero ‹_›, zero_add]
      exact hq.kept (Nat.le_max_right _ _)
    · split
      · rw [hq.eq_zero ‹_›, add_zero]
        exact hp.kept (Nat.le_max_left _ _)
      · exact joined joins_plus (balanced_singleton rfl (by simp) (by simp)) (fun _ _ => rfl)
          (fun _ _ => .add) hp hq

theorem sub (hp : p.Denotes known b none v) (hq : q.Denotes known b none w)
    (hexact : CombineExactly (· - ·) (· - ·) p q) :
    (p.sub q).ComesTo known b (max p.nesting q.nesting) (v - w) := by
  unfold Param.sub
  split
  · cases hp
    cases hq
    exact combined hexact
  · split
    · rw [hq.eq_zero ‹_›, sub_zero]
      exact hp.kept (Nat.le_max_left _ _)
    · split
      · rw [hp.eq_zero ‹_›, zero_sub]
        exact hq.neg.mono (Nat.le_max_right _ _)
      · exact joined joins_minus (balanced_singleton rfl (by simp) (by simp)) (fun _ _ => rfl)
          (fun _ _ => .sub) hp hq

theorem mul (hp : p.Denotes known b none v) (hq : q.Denotes known b none w)
    (hexact : CombineExactly (· * ·) (· * ·) p q) :
    (p.mul q).ComesTo known b (max p.nesting q.nesting) (v * w) := by
  unfold Param.mul
  split
  · cases hp
    cases hq
    exact combined hexact
  · split
    · have hzero : v * w = 0 := by
        rcases Bool.or_eq_true_iff.mp ‹_› with h | h
        · rw [hp.eq_zero h, zero_mul]
        · rw [hq.eq_zero h, mul_zero]
      rw [hzero]
      exact nought
    · split
      · rw [hp.eq_one ‹_›, one_mul]
        exact hq.kept (Nat.le_max_right _ _)
      · split
        · rw [hq.eq_one ‹_›, mul_one]
          exact hp.kept (Nat.le_max_left _ _)
        · exact joined joins_star (balanced_singleton rfl (by simp) (by simp)) (fun _ _ => rfl)
            (fun _ _ => .mul) hp hq

/-- A quotient with a divisor that is not nought. -/
theorem div (hp : p.Denotes known b none v) (hq : q.Denotes known b none w) (hw : w ≠ 0) :
    ∃ r, p.div q = .ok r ∧ (CombineExactly (· / ·) (· / ·) p q →
      r.ComesTo known b (max p.nesting q.nesting) (v / w)) := by
  have hzero : ¬ q.isZero = true := fun h => hw (hq.eq_zero h)
  unfold Param.div
  rw [if_neg hzero]
  split
  · refine ⟨_, rfl, fun hexact => ?_⟩
    cases hp
    cases hq
    exact combined hexact
  · refine ⟨_, rfl, fun _ => ?_⟩
    split
    · rw [hq.eq_one ‹_›, div_one]
      exact hp.kept (Nat.le_max_left _ _)
    · split
      · rw [hp.eq_zero ‹_›, zero_div]
        exact nought
      · exact joined joins_slash (balanced_singleton rfl (by simp) (by simp)) (fun _ _ => rfl)
          (fun _ _ hf hg => .div hf hg hw) hp hq

/-- An operation of arithmetic on parameters with values. -/
theorem run {o : Binary} {f : Float → Float → Float} {g : ℝ → ℝ → ℝ} (ho : o.IsArithmetic f g)
    (hp : p.Denotes known b none v) (hq : q.Denotes known b none w) (hw : o = .div → w ≠ 0) :
    ∃ r, o.run p q = .ok r ∧ (CombineExactly f g p q →
      r.ComesTo known b (max p.nesting q.nesting) (g v w)) := by
  cases ho with
  | add => exact ⟨_, rfl, hp.add hq⟩
  | sub => exact ⟨_, rfl, hp.sub hq⟩
  | mul => exact ⟨_, rfl, hp.mul hq⟩
  | div => exact hp.div hq (hw rfl)

end Param.Denotes

/-! ## Beyond the limit -/

end

end QuantumGates
