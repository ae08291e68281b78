-- Functions before and after evaluation, in exact arithmetic. A function of an expression is its
-- call in a longer expression, and a function of a number is computed at once. Where the
-- expression has a value, both ways have the same result or none at all, but for two points: the
-- sign of nought is nought in an expression and one as a number, and the angle of the origin has
-- no value in an expression and is nought for numbers.
import Mathlib.Analysis.SpecialFunctions.Trigonometric.Arctan
import QuantumGates.Proofs.Exact.NamedNumbers
import QuantumGates.Proofs.Expression.Nesting

namespace QuantumGates

/-! ## Functions of real numbers -/

/-- The value of a function of an expression at a real number, if it is a real number. -/
noncomputable def Fn.onReal (f : Fn) (x : ℝ) : Option ℝ :=
  match f with
  | sin => some (Real.sin x)
  | cos => some (Real.cos x)
  | tan => if Real.cos x = 0 then none else some (Real.tan x)
  | asin => if |x| ≤ 1 then some (Real.arcsin x) else none
  | acos => if |x| ≤ 1 then some (Real.arccos x) else none
  | atan => some (Real.arctan x)
  | atan2 => none
  | sinh => some (Real.sinh x)
  | cosh => some (Real.cosh x)
  | tanh => some (Real.tanh x)
  | exp => some (Real.exp x)
  | log => if 0 < x then some (Real.log x) else none
  | sqrt => if 0 ≤ x then some (√x) else none
  | abs => some |x|
  | sign => some (SignType.sign x)

/-- The angle of a point in an expression; the origin has none. -/
noncomputable def angleOnReal (y x : ℝ) : Option ℝ :=
  if y = 0 ∧ x = 0 then none else some (Complex.arg ⟨x, y⟩)

/-- Real values of formulas under tables of variables, exact on the functions: the call of a
function on a formula with a value has the value of the function, or none where that is no real
number. -/
structure RealEvaluation where
  value : Bindings ℝ → Formula → Option ℝ
  call {b : Bindings ℝ} {fn : Fn} {f : Formula} {x : ℝ} :
    value b f = some x → value b (.call fn f) = fn.onReal x
  angle {b : Bindings ℝ} {f g : Formula} {y x : ℝ} :
    value b f = some y → value b g = some x → value b (.call₂ .atan2 f g) = angleOnReal y x

/-- The value of a text, its brackets nested within a limit if there is one. -/
def RealEvaluation.evaluate (E : RealEvaluation) (limit : Option ℕ) (b : Bindings ℝ)
    (text : String) : Except (Fault ℝ) ℝ :=
  match Formula.readWithin limit text with
  | .error reason => .error (.noValue text reason)
  | .ok f =>
    match E.value b f with
    | some x => .ok x
    | none => .error (.noValue text .notFinite)

theorem RealEvaluation.evaluate_eq_ok_iff {E : RealEvaluation} {limit : Option ℕ} {b : Bindings ℝ}
    {text : String} {x : ℝ} :
    E.evaluate limit b text = .ok x ↔
      ∃ f, Formula.readWithin limit text = .ok f ∧ E.value b f = some x := by
  unfold evaluate
  cases hread : Formula.readWithin limit text with
  | error reason => simp
  | ok f => cases hvalue : E.value b f <;> simp [hvalue]

/-! ## Calls within a limit -/

section

variable {limit : Option ℕ} {name s t text : String} {fn : Fn} {f g : Formula}

theorem Calls.wrapping {count : ℕ} (hname : Calls name fn count) :
    (Token.name name).wrapping = 0 := by
  have hascii : name.toList.all (fun c => decide (c.toNat < 128)) = true := by
    refine List.all_eq_true.mpr fun c hc => ?_
    have hplain := hname.plain c hc
    unfold isPlainChar at hplain
    simp only [Bool.and_eq_true, decide_eq_true_eq] at hplain
    exact decide_eq_true (by omega)
  exact if_pos hascii

/-- A call is nested one deeper than its arguments. -/
theorem NestedTo.call {n count : ℕ} {s : List Char} (hname : Calls name fn count)
    (h : NestedTo n s) : NestedTo (n + 1) (name.toList ++ '(' :: (s ++ [')'])) := by
  obtain ⟨ts, hs, hbalanced, rfl⟩ := h
  have hcallee : Balanced [.name name] := balanced_singleton rfl (by simp) (by simp)
  refine ⟨_, hname.lexes hs, hcallee.append hbalanced.brackets, ?_⟩
  have hfirst : deepest 0 [.name name] = 0 := by
    rw [deepest_cons, hname.wrapping]
    rfl
  refine hcallee.deepest_append.trans ?_
  rw [hfirst, Nat.zero_max]
  exact hbalanced.deepest_brackets

theorem NestedTo.comma {m n : ℕ} {s u : List Char} (hs : NestedTo m s) (hu : NestedTo n u) :
    NestedTo (max m n) (s ++ ',' :: ' ' :: u) := by
  obtain ⟨ts, hs, hts, rfl⟩ := hs
  obtain ⟨us, hu, hus, rfl⟩ := hu
  have hcomma : Balanced [.sign .comma] := balanced_singleton rfl (by simp) (by simp)
  refine ⟨ts ++ ([.sign .comma] ++ us), hs.append (.word rfl rfl (.blank hu)) rfl,
    hts.append (hcomma.append hus), ?_⟩
  rw [hts.deepest_append, hcomma.deepest_append]
  exact congrArg (max _) (Nat.zero_max _)

/-- The call of a function on a plain expression is read as the call of the function. -/
theorem Formula.readWithin_call (hname : Calls name fn 1) (hs : IsPlainText s.toList)
    (hf : readWithin limit s = .ok f) (hlimit : exceeds limit (nestingOf s + 1) = false) :
    readWithin limit (name ++ "(" ++ s ++ ")") = .ok (.call fn f) := by
  have hread := readWithin_unlimited hf
  have hexpression : IsPlainExpression s := ⟨hs, f, hread⟩
  obtain ⟨x, hx, hwritten⟩ := hexpression.written
  have htext := toList_call name s
  have htree := Written.isPlainExpression_call htext (hwritten.call hname)
  have hnested : NestedTo (nestingOf s + 1) (name ++ "(" ++ s ++ ")").toList := by
    rw [htext]
    exact hexpression.nestedTo.call hname
  refine readWithin_of_nesting (IsPlainExpression.readWithin htree
    (Node.meaning?_called hname (meaning?_of_readWithin hx hread))) ?_
  rwa [hnested.nesting_eq htree.1.1]

theorem Node.meaning?_called₂ {x y : Node} (hname : Calls name fn 2)
    (hf : x.meaning? = some (.value f)) (hg : y.meaning? = some (.value g)) :
    (Node.mk (.call false) [.leaf (.name name), x, y]).meaning? =
      some (.value (.call₂ fn f g)) := by
  rw [Node.meaning?_mk, Node.meanings?_cons hname.meaning?
    (Node.meanings?_cons hf (Node.meanings?_cons hg rfl))]
  show (if fn.takes 2 then some (Meaning.value (.call₂ fn f g)) else none) = _
  rw [hname.takes]
  rfl

/-- The call of a function on two plain expressions. -/
theorem Formula.readWithin_call₂ (hname : Calls name fn 2)
    (htext : text.toList = name.toList ++ '(' :: ((s.toList ++ ',' :: ' ' :: t.toList) ++ [')']))
    (hs : IsPlainText s.toList) (ht : IsPlainText t.toList) (hf : readWithin limit s = .ok f)
    (hg : readWithin limit t = .ok g)
    (hlimit : exceeds limit (max (nestingOf s) (nestingOf t) + 1) = false) :
    readWithin limit text = .ok (.call₂ fn f g) := by
  have hread := readWithin_unlimited hf
  have hread' := readWithin_unlimited hg
  have hexpression : IsPlainExpression s := ⟨hs, f, hread⟩
  have hexpression' : IsPlainExpression t := ⟨ht, g, hread'⟩
  obtain ⟨x, hx, hwritten⟩ := hexpression.written
  obtain ⟨y, hy, hwritten'⟩ := hexpression'.written
  have htree := Written.isPlainExpression_call htext (hwritten.call₂ hname hwritten')
  have hnested : NestedTo (max (nestingOf s) (nestingOf t) + 1) text.toList := by
    rw [htext]
    exact (hexpression.nestedTo.comma hexpression'.nestedTo).call hname
  refine readWithin_of_nesting (IsPlainExpression.readWithin htree
    (Node.meaning?_called₂ hname (meaning?_of_readWithin hx hread)
      (meaning?_of_readWithin hy hread'))) ?_
  rwa [hnested.nesting_eq htree.1.1]

end

/-! ## Two ways to a result -/

/-- Both have the same result, or neither has one. -/
def SameResults {F A : Type} (m m' : Except F A) : Prop := ∀ a, m = .ok a ↔ m' = .ok a

section

variable {E : RealEvaluation} {limit : Option ℕ} {b : Bindings ℝ} {name s t : String} {fn : Fn}
  {x y : ℝ}

/-- The call of a function on an expression with a value has the value of the function. -/
theorem RealEvaluation.evaluate_call (hname : Calls name fn 1) (hs : IsPlainText s.toList)
    (hx : E.evaluate limit b s = .ok x) (hlimit : exceeds limit (nestingOf s + 1) = false)
    (y : ℝ) : E.evaluate limit b (name ++ "(" ++ s ++ ")") = .ok y ↔ fn.onReal x = some y := by
  obtain ⟨f, hf, hvalue⟩ := evaluate_eq_ok_iff.mp hx
  have hread := Formula.readWithin_call hname hs hf hlimit
  rw [evaluate_eq_ok_iff, ← E.call hvalue]
  constructor
  · rintro ⟨g, hg, hy⟩
    rw [hread] at hg
    cases hg
    exact hy
  · exact fun hy => ⟨_, hread, hy⟩

theorem RealEvaluation.evaluate_angle (hs : IsPlainText s.toList) (ht : IsPlainText t.toList)
    (hy : E.evaluate limit b s = .ok y) (hx : E.evaluate limit b t = .ok x)
    (hlimit : exceeds limit (max (nestingOf s) (nestingOf t) + 1) = false) (z : ℝ) :
    E.evaluate limit b ("atan2(" ++ s ++ ", " ++ t ++ ")") = .ok z ↔
      angleOnReal y x = some z := by
  obtain ⟨f, hf, hvalue⟩ := evaluate_eq_ok_iff.mp hy
  obtain ⟨g, hg, hvalue'⟩ := evaluate_eq_ok_iff.mp hx
  have htext := toList_atan2 s t
  have hread := Formula.readWithin_call₂ calls_atan2 htext hs ht hf hg hlimit
  rw [evaluate_eq_ok_iff, ← E.angle hvalue hvalue']
  constructor
  · rintro ⟨k, hk, hz⟩
    rw [hread] at hk
    cases hk
    exact hz
  · exact fun hz => ⟨_, hread, hz⟩

theorem map_literal_eq_ok_iff {m : Except (Fault ℝ) ℝ} {p : Param ℝ} :
    m.map Param.literal = .ok p ↔ ∃ y, m = .ok y ∧ p = .literal y := by
  cases m with
  | error fault => exact ⟨nofun, fun ⟨_, h, _⟩ => nomatch h⟩
  | ok z =>
    constructor
    · intro h
      cases h
      exact ⟨z, rfl, rfl⟩
    · rintro ⟨y, hy, rfl⟩
      cases hy
      rfl

theorem Param.substitute_expression {R : Type} [Scalar R]
    (evaluate : String → Except (Fault R) R) (s : String) :
    (Param.expression s).substitute evaluate = (evaluate s).map Param.literal := rfl

theorem substitute_of_evaluate (hx : E.evaluate limit b s = .ok x) :
    (Param.expression s).substitute (E.evaluate limit b) = .ok (.literal x) := by
  rw [Param.substitute_expression, hx]
  rfl

/-- A function of an expression evaluated, or the function of its value: the results agree if the
function of a number is that of an expression at the value. -/
theorem sameResults_apply {g : ℝ → Except (Fault ℝ) ℝ} (hname : Calls name fn 1)
    (hs : IsPlainText s.toList) (hx : E.evaluate limit b s = .ok x)
    (hlimit : exceeds limit (nestingOf s + 1) = false) :
    SameResults ((Param.expression s).apply name g >>= Param.substitute (E.evaluate limit b))
        ((Param.expression s).substitute (E.evaluate limit b) >>= Param.apply name g) ↔
      ∀ y, fn.onReal x = some y ↔ g x = .ok y := by
  have hbefore : (Param.expression s).apply name g >>= Param.substitute (E.evaluate limit b) =
      (E.evaluate limit b (name ++ "(" ++ s ++ ")")).map Param.literal := by
    have hcall : (Param.expression s).apply name g =
        .ok (.expression (name ++ "(" ++ s ++ ")")) := rfl
    rw [hcall, ← Param.substitute_expression]
    rfl
  have hafter : (Param.expression s).substitute (E.evaluate limit b) >>= Param.apply name g =
      (g x).map Param.literal := by
    rw [substitute_of_evaluate hx]
    rfl
  unfold SameResults
  rw [hbefore, hafter]
  simp only [map_literal_eq_ok_iff, RealEvaluation.evaluate_call hname hs hx hlimit]
  constructor
  · intro h y
    simpa using h (.literal y)
  · intro h p
    simp only [h]

/-- The functions of a parameter whose call in an expression is what they are on numbers. -/
noncomputable def agreeingFunctions : List (Param ℝ → Except (Fault ℝ) (Param ℝ)) :=
  [Param.abs, Param.sin, Param.cos, Param.acos, Param.exp, Param.sqrt]

theorem some_eq_iff_ok_eq {z w : ℝ} (h : z = w) (y : ℝ) :
    some z = some y ↔ (.ok w : Except (Fault ℝ) ℝ) = .ok y := by
  rw [h, Option.some.injEq, Except.ok.injEq]

theorem acos_onReal_iff (x y : ℝ) : Fn.acos.onReal x = some y ↔ Scalar.acos? x = .ok y := by
  show (if |x| ≤ 1 then some (Real.arccos x) else none) = some y ↔
    (if |x| ≤ 1 then .ok (Real.arccos x) else .error .undefined : Except (Fault ℝ) ℝ) = .ok y
  split
  · exact some_eq_iff_ok_eq rfl y
  · exact ⟨nofun, nofun⟩

theorem sqrt_onReal_iff (x y : ℝ) : Fn.sqrt.onReal x = some y ↔ Scalar.sqrt? x = .ok y := by
  show (if 0 ≤ x then some (√x) else none) = some y ↔
    (if x < 0 then .error .undefined else .ok (√x) : Except (Fault ℝ) ℝ) = .ok y
  by_cases hx : x < 0
  · rw [if_pos hx, if_neg (not_le.mpr hx)]
    exact ⟨nofun, nofun⟩
  · rw [if_neg hx, if_pos (not_lt.mp hx)]
    exact some_eq_iff_ok_eq rfl y

theorem sameResults_of_agreeing {f : Param ℝ → Except (Fault ℝ) (Param ℝ)}
    (hf : f ∈ agreeingFunctions) (hs : IsPlainText s.toList)
    (hx : E.evaluate limit b s = .ok x) (hlimit : exceeds limit (nestingOf s + 1) = false) :
    SameResults (f (.expression s) >>= Param.substitute (E.evaluate limit b))
      ((Param.expression s).substitute (E.evaluate limit b) >>= f) := by
  have hagree {name : String} {k : Fn} {g : ℝ → Except (Fault ℝ) ℝ}
      (hname : (name, k) ∈ singleFunctions) (h : ∀ y, k.onReal x = some y ↔ g x = .ok y) :=
    (sameResults_apply (calls_single hname) hs hx hlimit).mpr h
  simp only [agreeingFunctions, List.mem_cons, List.not_mem_nil, or_false] at hf
  rcases hf with rfl | rfl | rfl | rfl | rfl | rfl
  · exact hagree (k := .abs) (by decide) (some_eq_iff_ok_eq rfl)
  · exact hagree (k := .sin) (by decide) (some_eq_iff_ok_eq rfl)
  · exact hagree (k := .cos) (by decide) (some_eq_iff_ok_eq rfl)
  · exact hagree (k := .acos) (by decide) (acos_onReal_iff x)
  · exact hagree (k := .exp) (by decide) (some_eq_iff_ok_eq rfl)
  · exact hagree (k := .sqrt) (by decide) (sqrt_onReal_iff x)

/-- The sign of a number is that of an expression but for nought. -/
theorem signType_eq_iff (x : ℝ) : (SignType.sign x : ℝ) = (if x < 0 then -1 else 1) ↔ x ≠ 0 := by
  rcases lt_trichotomy x 0 with hx | rfl | hx
  · simp [hx, hx.ne]
  · simp
  · simp [hx, hx.ne', hx.le]

theorem sameResults_signum_iff (hs : IsPlainText s.toList) (hx : E.evaluate limit b s = .ok x)
    (hlimit : exceeds limit (nestingOf s + 1) = false) :
    SameResults ((Param.expression s).signum >>= Param.substitute (E.evaluate limit b))
      ((Param.expression s).substitute (E.evaluate limit b) >>= Param.signum) ↔ x ≠ 0 := by
  have hname : Calls "sign" .sign 1 := calls_single (by decide)
  have hsame : SameResults ((Param.expression s).signum >>= Param.substitute (E.evaluate limit b))
      ((Param.expression s).substitute (E.evaluate limit b) >>= Param.signum) ↔
        ∀ y, Fn.sign.onReal x = some y ↔
          (.ok (if x < 0 then -1 else 1) : Except (Fault ℝ) ℝ) = .ok y :=
    sameResults_apply hname hs hx hlimit
  rw [hsame, ← signType_eq_iff]
  constructor
  · intro h
    exact (Except.ok.inj ((h _).mp rfl)).symm
  · exact some_eq_iff_ok_eq

/-- The angle of a point but for the origin. -/
theorem sameResults_atan2_iff (hs : IsPlainText s.toList) (ht : IsPlainText t.toList)
    (hy : E.evaluate limit b s = .ok y) (hx : E.evaluate limit b t = .ok x)
    (hlimit : exceeds limit (max (nestingOf s) (nestingOf t) + 1) = false) :
    SameResults (((Param.expression s).atan2 (.expression t)).substitute (E.evaluate limit b))
      (do
        let p ← (Param.expression s).substitute (E.evaluate limit b)
        let q ← (Param.expression t).substitute (E.evaluate limit b)
        return p.atan2 q) ↔ ¬ (y = 0 ∧ x = 0) := by
  have hbefore : ((Param.expression s).atan2 (.expression t)).substitute (E.evaluate limit b) =
      (E.evaluate limit b ("atan2(" ++ s ++ ", " ++ t ++ ")")).map Param.literal :=
    Param.substitute_expression (E.evaluate limit b) ("atan2(" ++ s ++ ", " ++ t ++ ")")
  have hafter : (do
      let p ← (Param.expression s).substitute (E.evaluate limit b)
      let q ← (Param.expression t).substitute (E.evaluate limit b)
      return p.atan2 q) = .ok (.literal (Complex.arg ⟨x, y⟩)) := by
    rw [substitute_of_evaluate hy, substitute_of_evaluate hx]
    rfl
  unfold SameResults
  rw [hbefore, hafter]
  simp only [map_literal_eq_ok_iff, RealEvaluation.evaluate_angle hs ht hy hx hlimit, angleOnReal]
  by_cases hzero : y = 0 ∧ x = 0
  · simp [hzero]
  · simp [hzero, eq_comm]

end

/-- A function of an expression with a value is evaluated to the function of the value, or neither
has a value, within any limit that the longer text keeps. The sign is so but at nought, and the
angle of two expressions but at the origin. -/
theorem functions_before_and_after (E : RealEvaluation) (limit : Option ℕ) (b : Bindings ℝ)
    {s : String} {x : ℝ} (hs : IsPlainText s.toList) (hx : E.evaluate limit b s = .ok x) :
    (exceeds limit (nestingOf s + 1) = false →
      (∀ f ∈ agreeingFunctions,
        SameResults (f (.expression s) >>= Param.substitute (E.evaluate limit b))
          ((Param.expression s).substitute (E.evaluate limit b) >>= f)) ∧
      (SameResults ((Param.expression s).signum >>= Param.substitute (E.evaluate limit b))
        ((Param.expression s).substitute (E.evaluate limit b) >>= Param.signum) ↔ x ≠ 0)) ∧
    ∀ (t : String) (y : ℝ), IsPlainText t.toList → E.evaluate limit b t = .ok y →
      exceeds limit (max (nestingOf s) (nestingOf t) + 1) = false →
      (SameResults (((Param.expression s).atan2 (.expression t)).substitute (E.evaluate limit b))
        (do
          let p ← (Param.expression s).substitute (E.evaluate limit b)
          let q ← (Param.expression t).substitute (E.evaluate limit b)
          return p.atan2 q) ↔ ¬ (x = 0 ∧ y = 0)) := by
  constructor
  · intro hlimit
    exact ⟨fun f hf => sameResults_of_agreeing hf hs hx hlimit,
      sameResults_signum_iff hs hx hlimit⟩
  · intro t y ht hy hlimit
    exact sameResults_atan2_iff hs ht hx hy hlimit

/-! ## Evaluation part by part -/

/-- The real value of a formula whose parts all have one. -/
noncomputable def Formula.realByParts (b : Bindings ℝ) : Formula → Option ℝ
  | whole n => some n
  | decimal d => some d.asScalar
  | constant .pi => some Real.pi
  | constant _ => none
  | var name => b.get? name
  | negate f => (realByParts b f).map fun x => -x
  | binary o f g => do (o.apply (← realByParts b f) (← realByParts b g)).toOption
  | call fn f => (realByParts b f).bind fn.onReal
  | call₂ .atan2 f g => do angleOnReal (← realByParts b f) (← realByParts b g)
  | call₂ _ _ _ => none

noncomputable def RealEvaluation.byParts : RealEvaluation where
  value := Formula.realByParts
  call h := by
    rw [Formula.realByParts, h]
    rfl
  angle hf hg := by
    rw [Formula.realByParts, hf, hg]
    rfl

/-- Functions of two and of nought. -/
theorem functions_of_two_and_nought :
    let b : Bindings ℝ := ⟨[("x", 2), ("y", 0)]⟩
    let evaluate := RealEvaluation.byParts.evaluate (some deepestBracket) b
    let Agrees (f : Param ℝ → Except (Fault ℝ) (Param ℝ)) (s : String) : Prop :=
      SameResults (f (.expression s) >>= Param.substitute evaluate)
        ((Param.expression s).substitute evaluate >>= f)
    evaluate "x" = .ok 2 ∧ evaluate "y" = .ok 0 ∧ Agrees Param.acos "x" ∧
      Agrees Param.signum "x" ∧ ¬ Agrees Param.signum "y" ∧
      SameResults (((Param.expression "y").atan2 (.expression "x")).substitute evaluate)
        (do
          let p ← (Param.expression "y").substitute evaluate
          let q ← (Param.expression "x").substitute evaluate
          return p.atan2 q) := by
  intro b evaluate Agrees
  have hplain : ∀ s ∈ ["x", "y"], IsPlainText s.toList := fun s hs =>
    isPlainText_of_all (by revert s; decide)
  have hx : evaluate "x" = .ok 2 :=
    RealEvaluation.evaluate_eq_ok_iff.mpr ⟨.var "x", by decide +kernel, rfl⟩
  have hy : evaluate "y" = .ok 0 :=
    RealEvaluation.evaluate_eq_ok_iff.mpr ⟨.var "y", by decide +kernel, rfl⟩
  have hnested : nestingOf "x" = 0 ∧ nestingOf "y" = 0 := by decide +kernel
  have hatx := functions_before_and_after .byParts _ b (hplain "x" (by simp)) hx
  have haty := functions_before_and_after .byParts _ b (hplain "y" (by simp)) hy
  refine ⟨hx, hy, (hatx.1 ?_).1 _ (by simp [agreeingFunctions]), (hatx.1 ?_).2.mpr two_ne_zero,
    fun h => (haty.1 ?_).2.mp h rfl, (haty.2 "x" 2 (hplain "x" (by simp)) hx ?_).mpr (by simp)⟩
  · rw [hnested.1]
    rfl
  · rw [hnested.1]
    rfl
  · rw [hnested.2]
    rfl
  · rw [hnested.1, hnested.2]
    rfl

/-- In doubles the sign of an expression with the value nought is nought, and that of its value is
one; the angle of the origin has no value in an expression, and a value for numbers. -/
theorem sign_and_angle_of_nought :
    let evaluate := Bindings.evaluate ⟨[("x", 0.0)]⟩
    let x : Param Float := .expression "x"
    (x.signum >>= Param.substitute evaluate = .ok (.literal 0.0) ∧
      x.substitute evaluate >>= Param.signum = .ok (.literal 1.0)) ∧
    ((x.atan2 x).substitute evaluate = .error (.noValue "atan2(x, x)" .notFinite) ∧
      (do
        let p ← x.substitute evaluate
        return p.atan2 p) = .ok (.literal 0.0)) := by
  intro evaluate x
  have hx : evaluate "x" = .ok 0.0 := by decide +kernel
  have hsign : evaluate "sign(x)" = .ok 0.0 := by decide +kernel
  have hangle : evaluate "atan2(x, x)" = .error (.noValue "atan2(x, x)" .notFinite) := by
    decide +kernel
  -- from here on only these three values are used
  clear_value evaluate
  have hsubstitute : x.substitute evaluate = .ok (.literal 0.0) := by
    rw [Param.substitute_expression, hx]
    rfl
  have hsignum : x.signum = .ok (.expression "sign(x)") := by decide +kernel
  have hatan2 : x.atan2 x = .expression "atan2(x, x)" := by decide +kernel
  refine ⟨⟨?_, ?_⟩, ?_, ?_⟩
  · rw [hsignum]
    refine (Param.substitute_expression evaluate "sign(x)").trans ?_
    rw [hsign]
    rfl
  · rw [hsubstitute]
    decide +kernel
  · rw [hatan2, Param.substitute_expression, hangle]
    rfl
  · rw [hsubstitute]
    decide +kernel

end QuantumGates
