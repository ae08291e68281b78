-- Exact numbers that can be written. A real number has a name if it is made of 1 and pi by
-- arithmetic, sines, cosines and square roots; the name is a text of the expression grammar. The
-- numbers with names are closed under the operations of gates, and evaluation part by part reads
-- each name as its number, so symbolic arithmetic in these numbers is exact.
import QuantumGates.Proofs.Exact.Parameters

namespace QuantumGates

/-! ## Evaluation part by part -/

section

variable {R : Type}

/-- A result, or none. -/
def orNoValue : Except (Fault R) R → Except NoValue R
  | .ok x => .ok x
  | .error _ => .error .notFinite

theorem orNoValue_eq_ok {m : Except (Fault R) R} {x : R} (h : m = .ok x) :
    orNoValue m = .ok x := by
  rw [h]
  rfl

variable [Scalar R]

/-- A decimal number by whole numbers. -/
def Decimal.asScalar (d : Decimal) : R :=
  if 0 ≤ d.exponent then Scalar.whole (d.digits * 10 ^ d.exponent.toNat)
  else Scalar.whole d.digits / Scalar.whole (10 ^ (-d.exponent).toNat)

/-- The operation on two numbers; there is no quotient by nought. -/
def Dyadic.apply (o : Dyadic) (x y : R) : Except NoValue R :=
  match o with
  | add => .ok (x + y)
  | sub => .ok (x - y)
  | mul => .ok (x * y)
  | div => if Scalar.equal y 0 then .error .notFinite else .ok (x / y)
  | pow => orNoValue (Scalar.pow? x y)

/-- The function of a number, for the functions that numbers have. -/
def Fn.apply (f : Fn) (x : R) : Except NoValue R :=
  match f with
  | sin => orNoValue (Scalar.sin? x)
  | cos => orNoValue (Scalar.cos? x)
  | acos => orNoValue (Scalar.acos? x)
  | exp => orNoValue (Scalar.exp? x)
  | sqrt => orNoValue (Scalar.sqrt? x)
  | abs => .ok (Scalar.abs x)
  | _ => .error .notFinite

/-- The value of a formula whose parts all have values. -/
def Formula.valueByParts (b : Bindings R) : Formula → Except NoValue R
  | whole n => .ok (Scalar.whole n)
  | decimal d => .ok d.asScalar
  | constant .pi => .ok Scalar.pi
  | constant _ => .error .notFinite
  | var name =>
    match b.get? name with
    | some x => .ok x
    | none => .error (.unbound [name])
  | negate f => (valueByParts b f).map fun x => -x
  | binary o f g => do o.apply (← valueByParts b f) (← valueByParts b g)
  | call fn f => do fn.apply (← valueByParts b f)
  | call₂ .atan2 f g => do return Scalar.atan2 (← valueByParts b f) (← valueByParts b g)
  | call₂ _ _ _ => .error .notFinite

end

section

variable {R : Type} [ExactScalar R] {b : Bindings R} {f g : Formula} {x y : R}

theorem valueByParts_negate (hf : f.valueByParts b = .ok x) :
    (Formula.negate f).valueByParts b = .ok (-x) := by
  unfold Formula.valueByParts
  rw [hf]
  rfl

theorem valueByParts_binary {z : R} {o : Dyadic} (hf : f.valueByParts b = .ok x)
    (hg : g.valueByParts b = .ok y) (ho : o.apply x y = .ok z) :
    (Formula.binary o f g).valueByParts b = .ok z := by
  unfold Formula.valueByParts
  rw [hf, hg]
  exact ho

theorem valueByParts_call {fn : Fn} (hf : f.valueByParts b = .ok x) (hfn : fn.apply x = .ok y) :
    (Formula.call fn f).valueByParts b = .ok y := by
  unfold Formula.valueByParts
  rw [hf]
  exact hfn

theorem Dyadic.apply_div (hy : y ≠ 0) : Dyadic.div.apply x y = .ok (x / y) := by
  have hequal : ¬ Scalar.equal y 0 = true := fun h => hy ((ExactScalar.equal_iff y 0).mp h)
  unfold Dyadic.apply
  rw [if_neg hequal]

end

/-! ## Names -/

/-- Two texts in brackets with a sign between them. -/
def joinedText (sign s t : String) : String := "(" ++ s ++ " " ++ sign ++ " " ++ t ++ ")"

/-- The call of a function on a text. -/
def callText (name s : String) : String := name ++ "(" ++ s ++ ")"

/-- The text names the real number, and is to be read as the formula. -/
inductive Names : String → Formula → ℝ → Prop
  | one : Names "1" (.whole 1) 1
  | pi : Names "pi" (.constant .pi) Real.pi
  | negate {s : String} {f : Formula} {x : ℝ} :
    Names s f x → Names ("(-" ++ s ++ ")") (.negate f) (-x)
  | add {s t : String} {f g : Formula} {x y : ℝ} : Names s f x → Names t g y →
    Names (joinedText "+" s t) (.binary .add f g) (x + y)
  | sub {s t : String} {f g : Formula} {x y : ℝ} : Names s f x → Names t g y →
    Names (joinedText "-" s t) (.binary .sub f g) (x - y)
  | mul {s t : String} {f g : Formula} {x y : ℝ} : Names s f x → Names t g y →
    Names (joinedText "*" s t) (.binary .mul f g) (x * y)
  | div {s t : String} {f g : Formula} {x y : ℝ} : Names s f x → Names t g y → y ≠ 0 →
    Names (joinedText "/" s t) (.binary .div f g) (x / y)
  | sin {s : String} {f : Formula} {x : ℝ} : Names s f x →
    Names (callText "sin" s) (.call .sin f) (Real.sin x)
  | cos {s : String} {f : Formula} {x : ℝ} : Names s f x →
    Names (callText "cos" s) (.call .cos f) (Real.cos x)
  | sqrt {s : String} {f : Formula} {x : ℝ} : Names s f x → 0 ≤ x →
    Names (callText "sqrt" s) (.call .sqrt f) (√x)

/-! ## How names are read -/

/-- The brackets of a text close in it. -/
def ClosesItself (s : List Char) : Prop :=
  ∀ depth rest, closesAtEnd (depth + 1) (s ++ rest) = closesAtEnd (depth + 1) rest

namespace ClosesItself

variable {s u : List Char}

theorem append (hs : ClosesItself s) (hu : ClosesItself u) : ClosesItself (s ++ u) := by
  intro depth rest
  rw [List.append_assoc, hs, hu]

theorem brackets (hs : ClosesItself s) : ClosesItself ('(' :: s ++ [')']) := by
  intro depth rest
  show QuantumGates.closesAtEnd (depth + 1 + 1) (s ++ [')'] ++ rest) = _
  rw [List.append_assoc, hs]
  show (if depth + 1 + 1 = 1 then rest.isEmpty
    else QuantumGates.closesAtEnd (depth + 1 + 1 - 1) rest) = _
  rw [if_neg (by omega), Nat.add_sub_cancel]

/-- A bracket around a text that closes itself closes at its end. -/
theorem closesAtEnd (hs : ClosesItself s) : closesAtEnd 0 ('(' :: (s ++ [')'])) = true := by
  show QuantumGates.closesAtEnd (0 + 1) (s ++ [')']) = true
  rw [hs]
  rfl

end ClosesItself

/-- The text is one operand and is read as the formula. -/
structure Readable (s : String) (f : Formula) : Prop where
  plain : IsPlainText s.toList
  reads : Formula.readWithin none s = .ok f
  atomic : isAtomic s = true
  closes : ClosesItself s.toList

section

variable {s u : String} {f g : Formula}

theorem Readable.written (h : Readable s f) :
    ∃ t, Written Operand s.toList t ∧ t.meaning? = some (.value f) := by
  obtain ⟨t, ht, hwritten⟩ := IsPlainExpression.written ⟨h.plain, f, h.reads⟩
  exact ⟨t, hwritten.operand h.atomic, Formula.meaning?_of_readWithin ht h.reads⟩

theorem readable_brackets {u : List Char} {t : Node} (htext : s.toList = '(' :: u ++ [')'])
    (hwritten : Written Expresses u t) (hf : t.meaning? = some (.value f)) (hu : ClosesItself u) :
    Readable s f := by
  have htree := hwritten.isPlainExpression_brackets htext
  have hcallee : afterCallee ('(' :: (u ++ [')'])) = '(' :: (u ++ [')']) := rfl
  refine ⟨htree.1.1, IsPlainExpression.readWithin htree hf, ?_, ?_⟩
  · rw [List.cons_append] at htext
    simp [isAtomic, htext, hcallee, hu.closesAtEnd]
  · rw [htext]
    exact hu.brackets

theorem Readable.negate (h : Readable s f) : Readable ("(-" ++ s ++ ")") (.negate f) := by
  obtain ⟨t, hwritten, hf⟩ := h.written
  have hminus : ClosesItself ['-'] := fun _ _ => rfl
  exact readable_brackets (by simp) hwritten.negate (Node.meaning?_negated hf)
    (hminus.append h.closes)

theorem Readable.join {sign : String} {i : Sign} {o : Operator} {d : Dyadic}
    (hsign : Joins sign i o) (hcloses : ClosesItself sign.toList)
    (hmeans : Meaning.binary f o g = some (.value (.binary d f g))) (hs : Readable s f)
    (hu : Readable u g) : Readable (joinedText sign s u) (.binary d f g) := by
  obtain ⟨t, hwritten, hf⟩ := hs.written
  obtain ⟨t', hwritten', hg⟩ := hu.written
  have htext : (joinedText sign s u).toList =
      '(' :: (s.toList ++ ' ' :: (sign.toList ++ ' ' :: u.toList)) ++ [')'] :=
    toList_joined s sign u
  have hspace : ClosesItself [' '] := fun _ _ => rfl
  exact readable_brackets htext (hwritten.join hsign hwritten')
    (Node.meaning?_between hmeans hf hg)
    (hs.closes.append (hspace.append (hcloses.append (hspace.append hu.closes))))

theorem Readable.call {name : String} {fn : Fn} (hname : Calls name fn 1)
    (hcloses : ClosesItself name.toList)
    (hcallee : ∀ r, afterCallee (name.toList ++ '(' :: r) = '(' :: r) (h : Readable s f) :
    Readable (callText name s) (.call fn f) := by
  obtain ⟨t, hwritten, hf⟩ := h.written
  have htext : (callText name s).toList = name.toList ++ '(' :: (s.toList ++ [')']) :=
    toList_call name s
  have htree := Written.isPlainExpression_call htext (hwritten.expresses.call hname)
  refine ⟨htree.1.1, IsPlainExpression.readWithin htree (Node.meaning?_called hname hf), ?_, ?_⟩
  · simp [isAtomic, htext, hcallee, h.closes.closesAtEnd]
  · rw [htext]
    exact hcloses.append h.closes.brackets

end

/-- A name is one operand and is read as its formula. -/
theorem Names.readable {s : String} {f : Formula} {x : ℝ} (h : Names s f x) : Readable s f := by
  induction h with
  | one => exact ⟨isPlainText_of_all rfl, by decide +kernel, by decide, fun _ _ => rfl⟩
  | pi => exact ⟨isPlainText_of_all rfl, by decide +kernel, by decide, fun _ _ => rfl⟩
  | negate _ ih => exact ih.negate
  | add _ _ ih ih' => exact ih.join joins_plus (fun _ _ => rfl) rfl ih'
  | sub _ _ ih ih' => exact ih.join joins_minus (fun _ _ => rfl) rfl ih'
  | mul _ _ ih ih' => exact ih.join joins_star (fun _ _ => rfl) rfl ih'
  | div _ _ _ ih ih' => exact ih.join joins_slash (fun _ _ => rfl) rfl ih'
  | sin _ ih =>
    have hname : Calls "sin" .sin 1 := calls_single (by decide)
    exact ih.call hname (fun _ _ => rfl) fun _ => rfl
  | cos _ ih =>
    have hname : Calls "cos" .cos 1 := calls_single (by decide)
    exact ih.call hname (fun _ _ => rfl) fun _ => rfl
  | sqrt _ _ ih =>
    have hname : Calls "sqrt" .sqrt 1 := calls_single (by decide)
    exact ih.call hname (fun _ _ => rfl) fun _ => rfl

/-! ## Numbers with names -/

def IsNamed (x : ℝ) : Prop := ∃ s f, Names s f x

namespace IsNamed

variable {x y : ℝ}

theorem one : IsNamed 1 := ⟨_, _, .one⟩
theorem pi : IsNamed Real.pi := ⟨_, _, .pi⟩

theorem negate (hx : IsNamed x) : IsNamed (-x) := by
  obtain ⟨s, f, hs⟩ := hx
  exact ⟨_, _, hs.negate⟩

theorem add (hx : IsNamed x) (hy : IsNamed y) : IsNamed (x + y) := by
  obtain ⟨s, f, hs⟩ := hx
  obtain ⟨t, g, ht⟩ := hy
  exact ⟨_, _, hs.add ht⟩

theorem sub (hx : IsNamed x) (hy : IsNamed y) : IsNamed (x - y) := by
  obtain ⟨s, f, hs⟩ := hx
  obtain ⟨t, g, ht⟩ := hy
  exact ⟨_, _, hs.sub ht⟩

theorem mul (hx : IsNamed x) (hy : IsNamed y) : IsNamed (x * y) := by
  obtain ⟨s, f, hs⟩ := hx
  obtain ⟨t, g, ht⟩ := hy
  exact ⟨_, _, hs.mul ht⟩

theorem zero : IsNamed 0 := by
  have h := one.sub one
  rwa [sub_self] at h

theorem div (hx : IsNamed x) (hy : IsNamed y) : IsNamed (x / y) := by
  by_cases h0 : y = 0
  · rw [h0, div_zero]
    exact zero
  · obtain ⟨s, f, hs⟩ := hx
    obtain ⟨t, g, ht⟩ := hy
    exact ⟨_, _, hs.div ht h0⟩

theorem natCast (n : ℕ) : IsNamed n := by
  induction n with
  | zero =>
    rw [Nat.cast_zero]
    exact zero
  | succ n ih =>
    rw [Nat.cast_succ]
    exact ih.add one

theorem sin (hx : IsNamed x) : IsNamed (Real.sin x) := by
  obtain ⟨s, f, hs⟩ := hx
  exact ⟨_, _, hs.sin⟩

theorem cos (hx : IsNamed x) : IsNamed (Real.cos x) := by
  obtain ⟨s, f, hs⟩ := hx
  exact ⟨_, _, hs.cos⟩

theorem sqrt (hx : IsNamed x) (h0 : 0 ≤ x) : IsNamed (√x) := by
  obtain ⟨s, f, hs⟩ := hx
  exact ⟨_, _, hs.sqrt h0⟩

end IsNamed

/-- A real number with a name. -/
@[ext]
structure NamedReal where
  value : ℝ
  named : IsNamed value

namespace NamedReal

open Classical in
/-- A real number if it has a name, and nought if it has none. -/
noncomputable def of (x : ℝ) : NamedReal := if h : IsNamed x then ⟨x, h⟩ else ⟨0, .zero⟩

theorem value_of {x : ℝ} (h : IsNamed x) : (of x).value = x := by
  unfold of
  rw [dif_pos h]

/-- An operation on the real numbers, its result taken if it has a name. -/
noncomputable def lift (m : Except (Fault ℝ) ℝ) : Except (Fault NamedReal) NamedReal :=
  match m with
  | .ok x => .ok (of x)
  | .error _ => .error .undefined

/-- Every operation is that on the real numbers, and a number is written by its name. -/
noncomputable instance : Scalar NamedReal where
  zero := of 0
  one := of 1
  add x y := of (x.value + y.value)
  sub x y := of (x.value - y.value)
  mul x y := of (x.value * y.value)
  neg x := of (-x.value)
  div x y := of (x.value / y.value)
  whole n := of n
  pi := of Real.pi
  isFinite _ := true
  isDefined _ := true
  equal x y := Scalar.equal x.value y.value
  below x y := Scalar.below x.value y.value
  abs x := of (Scalar.abs x.value)
  sign x := of (Scalar.sign x.value)
  atan2 y x := of (Scalar.atan2 y.value x.value)
  sin? x := lift (Scalar.sin? x.value)
  cos? x := lift (Scalar.cos? x.value)
  acos? x := lift (Scalar.acos? x.value)
  exp? x := lift (Scalar.exp? x.value)
  sqrt? x := lift (Scalar.sqrt? x.value)
  pow? x y := lift (Scalar.pow? x.value y.value)
  square? x := lift (Scalar.square? x.value)
  hypot? x y := lift (Scalar.hypot? x.value y.value)
  cosSin x := (of (Scalar.cosSin x.value).1, of (Scalar.cosSin x.value).2)
  text x := x.named.choose
  isMinus _ := false

noncomputable instance : ExactScalar NamedReal where
  real x := x.value
  real_injective _ _ h := NamedReal.ext h
  real_zero := value_of .zero
  real_one := value_of .one
  real_add x y := value_of (x.named.add y.named)
  real_sub x y := value_of (x.named.sub y.named)
  real_mul x y := value_of (x.named.mul y.named)
  real_div x y := value_of (x.named.div y.named)
  real_neg x := value_of x.named.negate
  real_whole n := value_of (.natCast n)
  real_pi := value_of .pi
  sin?_eq x := ⟨_, rfl, value_of x.named.sin⟩
  cos?_eq x := ⟨_, rfl, value_of x.named.cos⟩
  sqrt?_eq x hx := ⟨of (√x.value), congrArg lift (Exact.sqrt?_eq hx), value_of (x.named.sqrt hx)⟩
  equal_iff _ _ := decide_eq_true_iff.trans NamedReal.ext_iff.symm
  isFinite_eq _ := rfl

end NamedReal

/-- Evaluation part by part reads a name as its number. -/
theorem Names.value {s : String} {f : Formula} {x : ℝ} (h : Names s f x) (b : Bindings NamedReal) :
    ∃ y : NamedReal, f.valueByParts b = .ok y ∧ ExactScalar.real y = x := by
  induction h with
  | one => exact ⟨_, rfl, (ExactScalar.real_whole (R := NamedReal) 1).trans Nat.cast_one⟩
  | pi => exact ⟨_, rfl, ExactScalar.real_pi⟩
  | negate _ ih =>
    obtain ⟨y, hy, rfl⟩ := ih
    exact ⟨_, valueByParts_negate hy, ExactScalar.real_neg y⟩
  | add _ _ ih ih' =>
    obtain ⟨y, hy, rfl⟩ := ih
    obtain ⟨z, hz, rfl⟩ := ih'
    exact ⟨_, valueByParts_binary hy hz rfl, ExactScalar.real_add y z⟩
  | sub _ _ ih ih' =>
    obtain ⟨y, hy, rfl⟩ := ih
    obtain ⟨z, hz, rfl⟩ := ih'
    exact ⟨_, valueByParts_binary hy hz rfl, ExactScalar.real_sub y z⟩
  | mul _ _ ih ih' =>
    obtain ⟨y, hy, rfl⟩ := ih
    obtain ⟨z, hz, rfl⟩ := ih'
    exact ⟨_, valueByParts_binary hy hz rfl, ExactScalar.real_mul y z⟩
  | div _ _ hne ih ih' =>
    obtain ⟨y, hy, rfl⟩ := ih
    obtain ⟨z, hz, rfl⟩ := ih'
    have hz0 : z ≠ 0 := by
      rintro rfl
      exact hne ExactScalar.real_zero
    exact ⟨_, valueByParts_binary hy hz (Dyadic.apply_div hz0), ExactScalar.real_div y z⟩
  | sin _ ih =>
    obtain ⟨y, hy, rfl⟩ := ih
    obtain ⟨z, hz, hreal⟩ := ExactScalar.sin?_eq y
    exact ⟨z, valueByParts_call hy (orNoValue_eq_ok hz), hreal⟩
  | cos _ ih =>
    obtain ⟨y, hy, rfl⟩ := ih
    obtain ⟨z, hz, hreal⟩ := ExactScalar.cos?_eq y
    exact ⟨z, valueByParts_call hy (orNoValue_eq_ok hz), hreal⟩
  | sqrt _ hnonneg ih =>
    obtain ⟨y, hy, rfl⟩ := ih
    obtain ⟨z, hz, hreal⟩ := ExactScalar.sqrt?_eq y hnonneg
    exact ⟨z, valueByParts_call hy (orNoValue_eq_ok hz), hreal⟩

/-- Evaluation part by part is exact on the numbers with names. -/
noncomputable def NamedReal.evaluation : ExactEvaluation NamedReal where
  value := Formula.valueByParts
  bound {b name x} h := by
    unfold Formula.valueByParts
    rw [h]
  negate := valueByParts_negate
  add hf hg := valueByParts_binary hf hg rfl
  sub hf hg := valueByParts_binary hf hg rfl
  mul hf hg := valueByParts_binary hf hg rfl
  div hf hg hy := valueByParts_binary hf hg (Dyadic.apply_div hy)
  sin hf hy := valueByParts_call hf (orNoValue_eq_ok hy)
  cos hf hy := valueByParts_call hf (orNoValue_eq_ok hy)
  legible x := by
    obtain ⟨f, hnames⟩ := x.named.choose_spec
    have hreadable := hnames.readable
    refine ⟨hreadable.plain, hreadable.atomic, f, hreadable.reads, fun b => ?_⟩
    obtain ⟨y, hy, hreal⟩ := hnames.value b
    rwa [ExactScalar.ext (x := y) (y := x) hreal] at hy

/-! ## Expressions of half a turn -/

namespace HalfTurn

/-- Half a turn for `t`. -/
noncomputable def bindings : Bindings NamedReal := ⟨[("t", Scalar.pi)]⟩

theorem isPlainText {s : String} (hs : s ∈ ["t", "t + t", "-t"]) : IsPlainText s.toList :=
  isPlainText_of_all (by revert s; decide)

theorem value_t : NamedReal.evaluation.value bindings (.var "t") = .ok Scalar.pi :=
  NamedReal.evaluation.bound rfl

theorem evaluates_t :
    (Param.expression "t").EvaluatesTo NamedReal.evaluation bindings (.literal Scalar.pi) := by
  have hread : Formula.readWithin none "t" = .ok (.var "t") := by decide +kernel
  exact ⟨_, .expression (isPlainText (by simp)) hread value_t, rfl⟩

theorem evaluates_double :
    (Param.expression "t + t").EvaluatesTo NamedReal.evaluation bindings
      (.literal (Scalar.pi + Scalar.pi)) := by
  have hread : Formula.readWithin none "t + t" = .ok (.binary .add (.var "t") (.var "t")) := by
    decide +kernel
  exact ⟨_, .expression (isPlainText (by simp)) hread
    (NamedReal.evaluation.add value_t value_t), rfl⟩

theorem evaluates_opposite :
    (Param.expression "-t").EvaluatesTo NamedReal.evaluation bindings
      (.literal (-Scalar.pi)) := by
  have hread : Formula.readWithin none "-t" = .ok (.negate (.var "t")) := by decide +kernel
  exact ⟨_, .expression (isPlainText (by simp)) hread (NamedReal.evaluation.negate value_t), rfl⟩

end HalfTurn

end QuantumGates
