-- Arithmetic with parameters keeps its operands whole. Whatever numbers and plain texts a
-- computation begins with, a result that is an expression is a plain text again, and its tree is
-- the node of the last operation over the trees of the operands, unless a number among them made
-- the operation leave itself out.
import QuantumGates.Proofs.Expression.Literals
import QuantumGates.Proofs.Results

namespace QuantumGates

/-! ## Computations -/

/-- An operation on one parameter. -/
inductive Unary
  | neg | abs | sin | cos | acos | exp | sqrt | signum | recip
deriving DecidableEq, Repr

/-- An operation on two parameters. -/
inductive Binary
  | add | sub | mul | div | pow | atan2
deriving DecidableEq, Repr

def Unary.run (o : Unary) (p : Param Float) : Except (Fault Float) (Param Float) :=
  match o with
  | neg => .ok p.neg
  | abs => p.abs
  | sin => p.sin
  | cos => p.cos
  | acos => p.acos
  | exp => p.exp
  | sqrt => p.sqrt
  | signum => p.signum
  | recip => p.recip

def Binary.run (o : Binary) (p q : Param Float) : Except (Fault Float) (Param Float) :=
  match o with
  | add => .ok (p.add q)
  | sub => .ok (p.sub q)
  | mul => .ok (p.mul q)
  | div => p.div q
  | pow => p.pow q
  | atan2 => .ok (p.atan2 q)

/-- Numbers and texts put together by operations. -/
inductive Computation
  | number (x : Float)
  | text (s : String)
  | unary (o : Unary) (c : Computation)
  | binary (o : Binary) (c d : Computation)

namespace Computation

/-- The parameter that a computation comes to, if no operation fails. -/
def run : Computation → Except (Fault Float) (Param Float)
  | number x => .ok (.literal x)
  | text s => .ok (.expression s)
  | unary o c => do o.run (← c.run)
  | binary o c d => do o.run (← c.run) (← d.run)

/-- Every text that a computation begins with is a plain expression. -/
def BeginsPlain : Computation → Prop
  | number _ => True
  | text s => IsPlainExpression s
  | unary _ c => c.BeginsPlain
  | binary _ c d => c.BeginsPlain ∧ d.BeginsPlain

end Computation

/-! ## Trees -/

/-- The tree that a parameter stands for: the constant of a number, the tree of an expression. -/
inductive Stands : Param Float → Node → Prop
  | literal {x : Float} {t : Node} : IsConstant x t → Stands (.literal x) t
  | expression {s : String} {t : Node} : Node.ofText? s = some t → Stands (.expression s) t

/-- The node of an operator between two operands. -/
def Node.between (o : Operator) (x y : Node) : Node := .mk .binary [x, .leaf (.operator o), y]

/-- The node of a call. -/
def Node.called (name : String) (xs : List Node) : Node :=
  .mk (.call false) (.leaf (.name name) :: xs)

/-- The node of an operation over the tree of its operand is `y`. -/
def Unary.IsNode (o : Unary) (x y : Node) : Prop :=
  match o with
  | neg => y = .mk .unary [.leaf (.operator .negative), x]
  | abs => y = .called "Abs" [x]
  | sin => y = .called "sin" [x]
  | cos => y = .called "cos" [x]
  | acos => y = .called "acos" [x]
  | exp => y = .called "exp" [x]
  | sqrt => y = .called "sqrt" [x]
  | signum => y = .called "sign" [x]
  | recip => ∃ one, IsConstant 1.0 one ∧ y = .between .div one x

/-- The node of an operation over the trees of its operands. -/
def Binary.node (o : Binary) (x y : Node) : Node :=
  match o with
  | add => .between .add x y
  | sub => .between .sub x y
  | mul => .between .mul x y
  | div => .between .div x y
  | pow => .between .pow x y
  | atan2 => .called "atan2" [x, y]

/-- An operation with a number leaves itself out: nought is not added or subtracted, what is
subtracted from nought is negated, and nothing is multiplied or divided by one. -/
inductive Shortcut : Binary → Param Float → Param Float → Param Float → Prop
  | zero_add {p q : Param Float} : p.isZero = true → Shortcut .add p q q
  | add_zero {p q : Param Float} : q.isZero = true → Shortcut .add p q p
  | sub_zero {p q : Param Float} : q.isZero = true → Shortcut .sub p q p
  | zero_sub {p q : Param Float} : p.isZero = true → Shortcut .sub p q q.neg
  | one_mul {p q : Param Float} : p.isOne = true → Shortcut .mul p q q
  | mul_one {p q : Param Float} : q.isOne = true → Shortcut .mul p q p
  | div_one {p q : Param Float} : q.isOne = true → Shortcut .div p q p

/-- The text `s` is what the last operation of a computation makes of the trees of its operands,
or the text that the computation is. -/
def Computation.Keeps (c : Computation) (s : String) : Prop :=
  match c with
  | number _ => False
  | text t => s = t
  | unary o c => ∃ p x y, c.run = .ok p ∧ Stands p x ∧ o.IsNode x y ∧ Node.ofText? s = some y
  | binary o c d => ∃ p q, c.run = .ok p ∧ d.run = .ok q ∧
      (Shortcut o p q (.expression s) ∨
        ∃ x y, Stands p x ∧ Stands q y ∧ Node.ofText? s = some (o.node x y))

/-! ## Operands -/

/-- The parameter is a number or a plain expression. -/
def Param.IsPlain : Param Float → Prop
  | literal _ => True
  | expression s => IsPlainExpression s

section

variable {p q r : Param Float} {s : String}

/-- A parameter is written with its tree, as an operand and as an argument. -/
theorem Param.IsPlain.written (h : p.IsPlain) :
    ∃ x, Stands p x ∧ Written Operand p.operand.toList x ∧
      Written Expresses p.argument.toList x := by
  cases p with
  | literal x =>
    obtain ⟨t, ht, hwritten⟩ := exists_constant x
    exact ⟨t, .literal ht, hwritten, hwritten.expresses⟩
  | expression s =>
    obtain ⟨t, ht, hwritten⟩ := IsPlainExpression.written h
    exact ⟨t, .expression ht, hwritten.bracketed, hwritten⟩

/-- Two operands with a sign between them. -/
theorem Param.joined_expression {sign : String} {g : Sign} {o : Operator}
    (hsign : Joins sign g o) (hp : p.IsPlain) (hq : q.IsPlain)
    (h : Param.joined sign p q = .expression s) :
    IsPlainExpression s ∧
      ∃ x y, Stands p x ∧ Stands q y ∧ Node.ofText? s = some (.between o x y) := by
  obtain ⟨x, hx, hwritten, -⟩ := hp.written
  obtain ⟨y, hy, hwritten', -⟩ := hq.written
  cases h
  have htext := toList_joined p.operand sign q.operand
  obtain ⟨hplain, htree⟩ := (hwritten.join hsign hwritten').isPlainExpression_brackets htext
  exact ⟨hplain, x, y, hx, hy, htree⟩

/-- The call of a function on an expression. -/
theorem Param.apply_expression {name : String} {f : Fn}
    {g : Float → Except (Fault Float) Float} (hname : Calls name f 1) (hp : p.IsPlain)
    (h : p.apply name g = .ok (.expression s)) :
    IsPlainExpression s ∧ ∃ x, Stands p x ∧ Node.ofText? s = some (.called name [x]) := by
  obtain ⟨x, hx, -, hwritten⟩ := hp.written
  cases p with
  | literal v =>
    unfold Param.apply at h
    simp only at h
    cases hv : g v with
    | error fault =>
      rw [hv] at h
      cases h
    | ok w =>
      rw [hv] at h
      cases h
  | expression t =>
    cases h
    have htext := toList_call name (Param.expression t : Param Float).argument
    obtain ⟨hplain, htree⟩ := Written.isPlainExpression_call htext (hwritten.call hname)
    exact ⟨hplain, x, hx, htree⟩

/-- A minus before an operand. -/
theorem Param.neg_expression (hp : p.IsPlain) (h : p.neg = .expression s) :
    IsPlainExpression s ∧ ∃ x, Stands p x ∧
      Node.ofText? s = some (.mk .unary [.leaf (.operator .negative), x]) := by
  obtain ⟨x, hx, hwritten, -⟩ := hp.written
  cases p with
  | literal v => cases h
  | expression t =>
    cases h
    have htext := toList_negated (Param.expression t : Param Float).operand
    obtain ⟨hplain, htree⟩ := hwritten.negate.isPlainExpression_brackets htext
    exact ⟨hplain, x, hx, htree⟩

/-- The angle of a point with an expression for a coordinate. -/
theorem Param.atan2_expression (hp : p.IsPlain) (hq : q.IsPlain)
    (h : p.atan2 q = .expression s) :
    IsPlainExpression s ∧
      ∃ x y, Stands p x ∧ Stands q y ∧ Node.ofText? s = some (.called "atan2" [x, y]) := by
  obtain ⟨x, hx, -, hwritten⟩ := hp.written
  obtain ⟨y, hy, -, hwritten'⟩ := hq.written
  have hs : s = "atan2(" ++ p.argument ++ ", " ++ q.argument ++ ")" := by
    unfold Param.atan2 at h
    split at h
    · cases h
    · cases h
      rfl
  have htext := toList_atan2 p.argument q.argument
  rw [← hs] at htext
  obtain ⟨hplain, htree⟩ :=
    Written.isPlainExpression_call htext (hwritten.call₂ calls_atan2 hwritten')
  exact ⟨hplain, x, y, hx, hy, htree⟩

/-! ## Operations -/

/-- The functions of one parameter, by their names in an expression. -/
def singleFunctions : List (String × Fn) :=
  [("Abs", .abs), ("sin", .sin), ("cos", .cos), ("acos", .acos), ("exp", .exp), ("sqrt", .sqrt),
   ("sign", .sign)]

theorem calls_single {name : String} {f : Fn} (h : (name, f) ∈ singleFunctions) :
    Calls name f 1 := by
  unfold singleFunctions at h
  simp only [List.mem_cons, Prod.mk.injEq, List.not_mem_nil, or_false] at h
  rcases h with ⟨rfl, rfl⟩ | ⟨rfl, rfl⟩ | ⟨rfl, rfl⟩ | ⟨rfl, rfl⟩ | ⟨rfl, rfl⟩ | ⟨rfl, rfl⟩ |
    ⟨rfl, rfl⟩
  all_goals
    exact ⟨isPlainText_of_all rfl, fun _ => rfl, rfl, rfl, by simp, rfl⟩

/-- What the operations with shortcuts come to. -/
theorem add_cases (p q : Param Float) :
    (∃ x, p.add q = .literal x) ∨ Shortcut .add p q (p.add q) ∨ p.add q = .joined "+" p q := by
  unfold Param.add
  split
  · exact .inl ⟨_, rfl⟩
  · split
    · exact .inr (.inl (.zero_add ‹_›))
    · split
      · exact .inr (.inl (.add_zero ‹_›))
      · exact .inr (.inr rfl)

theorem sub_cases (p q : Param Float) :
    (∃ x, p.sub q = .literal x) ∨ Shortcut .sub p q (p.sub q) ∨ p.sub q = .joined "-" p q := by
  unfold Param.sub
  split
  · exact .inl ⟨_, rfl⟩
  · split
    · exact .inr (.inl (.sub_zero ‹_›))
    · split
      · exact .inr (.inl (.zero_sub ‹_›))
      · exact .inr (.inr rfl)

theorem mul_cases (p q : Param Float) :
    (∃ x, p.mul q = .literal x) ∨ Shortcut .mul p q (p.mul q) ∨ p.mul q = .joined "*" p q := by
  unfold Param.mul
  split
  · exact .inl ⟨_, rfl⟩
  · split
    · exact .inl ⟨_, rfl⟩
    · split
      · exact .inr (.inl (.one_mul ‹_›))
      · split
        · exact .inr (.inl (.mul_one ‹_›))
        · exact .inr (.inr rfl)

theorem div_cases (h : p.div q = .ok r) :
    (∃ x, r = .literal x) ∨ Shortcut .div p q r ∨ r = .joined "/" p q := by
  unfold Param.div at h
  split at h
  · cases h
  · split at h
    · cases h
      exact .inl ⟨_, rfl⟩
    · cases h
      split
      · exact .inr (.inl (.div_one ‹_›))
      · split
        · exact .inl ⟨_, rfl⟩
        · exact .inr (.inr rfl)

theorem pow_cases (h : p.pow q = .ok r) : (∃ x, r = .literal x) ∨ r = .joined "**" p q := by
  unfold Param.pow at h
  split at h
  · rename_i x y
    cases hv : (Scalar.pow? x y : Except (Fault Float) Float) with
    | error fault =>
      rw [hv] at h
      cases h
    | ok v =>
      rw [hv] at h
      cases h
      exact .inl ⟨v, rfl⟩
  · cases h
    exact .inr rfl

/-- What an operation with a number leaves out, it leaves a plain parameter. -/
theorem Shortcut.isPlain {o : Binary} (h : Shortcut o p q r) (hp : p.IsPlain) (hq : q.IsPlain) :
    r.IsPlain := by
  cases h with
  | zero_add _ => exact hq
  | add_zero _ => exact hp
  | sub_zero _ => exact hp
  | zero_sub _ =>
    cases hneg : q.neg with
    | literal x => trivial
    | expression s => exact (Param.neg_expression hq hneg).1
  | one_mul _ => exact hq
  | mul_one _ => exact hp
  | div_one _ => exact hp

/-- An operation that comes to a number, a shortcut, or its sign between its operands. -/
theorem expression_of_cases {o : Binary} {sign : String} {g : Sign} {k : Operator}
    (hsign : Joins sign g k) (hnode : ∀ x y, o.node x y = .between k x y)
    (hp : p.IsPlain) (hq : q.IsPlain)
    (h : (∃ x : Float, Param.expression s = .literal x) ∨ Shortcut o p q (.expression s) ∨
      Param.expression s = .joined sign p q) :
    IsPlainExpression s ∧ (Shortcut o p q (.expression s) ∨
      ∃ x y, Stands p x ∧ Stands q y ∧ Node.ofText? s = some (o.node x y)) := by
  rcases h with ⟨x, hx⟩ | hshort | hjoined
  · cases hx
  · exact ⟨hshort.isPlain hp hq, .inl hshort⟩
  · obtain ⟨hplain, x, y, hx, hy, htree⟩ := Param.joined_expression hsign hp hq hjoined.symm
    exact ⟨hplain, .inr ⟨x, y, hx, hy, by rw [hnode, htree]⟩⟩

/-- An operation on two parameters keeps them whole. -/
theorem Binary.run_expression {o : Binary} (hp : p.IsPlain) (hq : q.IsPlain)
    (h : o.run p q = .ok (.expression s)) :
    IsPlainExpression s ∧ (Shortcut o p q (.expression s) ∨
      ∃ x y, Stands p x ∧ Stands q y ∧ Node.ofText? s = some (o.node x y)) := by
  cases o with
  | add =>
    have hcases := add_cases p q
    rw [Except.ok.inj h] at hcases
    exact expression_of_cases joins_plus (fun _ _ => rfl) hp hq hcases
  | sub =>
    have hcases := sub_cases p q
    rw [Except.ok.inj h] at hcases
    exact expression_of_cases joins_minus (fun _ _ => rfl) hp hq hcases
  | mul =>
    have hcases := mul_cases p q
    rw [Except.ok.inj h] at hcases
    exact expression_of_cases joins_star (fun _ _ => rfl) hp hq hcases
  | div => exact expression_of_cases joins_slash (fun _ _ => rfl) hp hq (div_cases h)
  | pow =>
    rcases pow_cases h with hx | hjoined
    · exact expression_of_cases joins_power (fun _ _ => rfl) hp hq (.inl hx)
    · exact expression_of_cases joins_power (fun _ _ => rfl) hp hq (.inr (.inr hjoined))
  | atan2 =>
    obtain ⟨hplain, x, y, hx, hy, htree⟩ := Param.atan2_expression hp hq (Except.ok.inj h)
    exact ⟨hplain, .inr ⟨x, y, hx, hy, htree⟩⟩

/-- An operation on one parameter keeps it whole. -/
theorem Unary.run_expression {o : Unary} (hp : p.IsPlain) (h : o.run p = .ok (.expression s)) :
    IsPlainExpression s ∧ ∃ x y, Stands p x ∧ o.IsNode x y ∧ Node.ofText? s = some y := by
  have hcalled : ∀ {name : String} {f : Fn} {g : Float → Except (Fault Float) Float},
      (name, f) ∈ singleFunctions → p.apply name g = .ok (.expression s) →
      (∀ x, o.IsNode x (.called name [x])) →
      IsPlainExpression s ∧ ∃ x y, Stands p x ∧ o.IsNode x y ∧ Node.ofText? s = some y := by
    intro name f g hmem happly hnode
    obtain ⟨hplain, x, hx, htree⟩ := Param.apply_expression (calls_single hmem) hp happly
    exact ⟨hplain, x, _, hx, hnode x, htree⟩
  cases o with
  | neg =>
    obtain ⟨hplain, x, hx, htree⟩ := Param.neg_expression hp (Except.ok.inj h)
    exact ⟨hplain, x, _, hx, rfl, htree⟩
  | recip =>
    have hdiv : (Param.literal (1.0 : Float)).div p = .ok (.expression s) := h
    rcases div_cases hdiv with ⟨x, hx⟩ | hshort | hjoined
    · cases hx
    · -- the only shortcut of a quotient gives its first operand, and that is a number
      cases hshort
    · obtain ⟨hplain, one, x, hone, hx, htree⟩ :=
        Param.joined_expression joins_slash (p := .literal 1.0) trivial hp hjoined.symm
      cases hone with
      | literal hone => exact ⟨hplain, x, _, hx, ⟨one, hone, rfl⟩, htree⟩
  | abs => exact hcalled (f := .abs) (by decide) h fun _ => rfl
  | sin => exact hcalled (f := .sin) (by decide) h fun _ => rfl
  | cos => exact hcalled (f := .cos) (by decide) h fun _ => rfl
  | acos => exact hcalled (f := .acos) (by decide) h fun _ => rfl
  | exp => exact hcalled (f := .exp) (by decide) h fun _ => rfl
  | sqrt => exact hcalled (f := .sqrt) (by decide) h fun _ => rfl
  | signum => exact hcalled (f := .sign) (by decide) h fun _ => rfl

/-! ## Whole computations -/

/-- A computation that begins with plain texts comes to a number or a plain expression. -/
theorem Computation.isPlain_of_run {c : Computation} (hc : c.BeginsPlain) (h : c.run = .ok r) :
    r.IsPlain := by
  -- a result that is an expression is plain as soon as the operands are
  induction c generalizing r with
  | number x =>
    cases h
    trivial
  | text t =>
    cases h
    exact hc
  | unary o c ih =>
    obtain ⟨p, hp, ho⟩ := bind_eq_ok h
    cases r with
    | literal x => trivial
    | expression s => exact (Unary.run_expression (ih hc hp) ho).1
  | binary o c d ihc ihd =>
    obtain ⟨p, hp, h⟩ := bind_eq_ok h
    obtain ⟨q, hq, ho⟩ := bind_eq_ok h
    cases r with
    | literal x => trivial
    | expression s => exact (Binary.run_expression (ihc hc.1 hp) (ihd hc.2 hq) ho).1

/-- A computation that comes to an expression comes to a plain one, whose tree is made of the
whole trees of the operands of its last operation. -/
theorem Computation.run_keeps_operands {c : Computation} (hc : c.BeginsPlain)
    (h : c.run = .ok (.expression s)) : IsPlainExpression s ∧ c.Keeps s := by
  cases c with
  | number x => cases h
  | text t =>
    cases h
    exact ⟨hc, rfl⟩
  | unary o c =>
    obtain ⟨p, hp, ho⟩ := bind_eq_ok h
    obtain ⟨hplain, x, y, hx, hnode, htree⟩ :=
      Unary.run_expression (isPlain_of_run (c := c) hc hp) ho
    exact ⟨hplain, p, x, y, hp, hx, hnode, htree⟩
  | binary o c d =>
    obtain ⟨p, hp, h⟩ := bind_eq_ok h
    obtain ⟨q, hq, ho⟩ := bind_eq_ok h
    obtain ⟨hplain, hkeeps⟩ :=
      Binary.run_expression (isPlain_of_run hc.1 hp) (isPlain_of_run hc.2 hq) ho
    exact ⟨hplain, p, q, hp, hq, hkeeps⟩

end

/-- A negative number to the power of a product, the factors of which need brackets. -/
theorem Computation.power_keeps_operands :
    let c := binary .pow (number (-2.0)) (binary .mul (text "a + b") (text "-c ^ 2"))
    c.BeginsPlain ∧ c.run = .ok (.expression "((-2.0) ** ((a + b) * (-c ^ 2)))") ∧
      IsPlainExpression "((-2.0) ** ((a + b) * (-c ^ 2)))" ∧
      c.Keeps "((-2.0) ** ((a + b) * (-c ^ 2)))" := by
  intro c
  have hsum : IsPlainExpression "a + b" := by
    refine ⟨?_, .binary .add (.var "a") (.var "b"), by decide +kernel⟩
    exact isPlainText_of_all rfl
  have hsquare : IsPlainExpression "-c ^ 2" := by
    refine ⟨?_, .negate (.binary .pow (.var "c") (.whole 2)), by decide +kernel⟩
    exact isPlainText_of_all rfl
  have hc : c.BeginsPlain := ⟨trivial, hsum, hsquare⟩
  have hrun : c.run = .ok (.expression "((-2.0) ** ((a + b) * (-c ^ 2)))") := by decide +kernel
  exact ⟨hc, hrun, run_keeps_operands hc hrun⟩

end QuantumGates
