-- The trees of expressions. In a tree of the language each construct of arithmetic has the parts
-- that belong to it. Every rule of the grammar gives such trees if the rules that it uses do; so
-- every tree that is read from words is one, whether it is arithmetic or not.
import QuantumGates.Proofs.Expression.Rules

namespace QuantumGates

namespace Node

/-! ## The trees of the language -/

/-- The node of an operator: one of those listed, or one that is no arithmetic. -/
def IsOperator (os : List Operator) (o : Node) : Prop :=
  (∃ s ∈ os, o = leaf (.operator s)) ∨ ∃ label, o = leaf (.other label)

/-- The operators before an operand. -/
def signOperators : List Operator := [.positive, .negative]

/-- The operators between operands. -/
def joiningOperators : List Operator := [.add, .sub, .mul, .div, .pow, .xor]

/-- The trees of expressions: each construct of arithmetic has the parts that belong to it. What
stands below any other construct is left open. -/
inductive IsExpression : Node → Prop
  | name (id : String) : IsExpression (leaf (.name id))
  | whole (n : ℕ) : IsExpression (leaf (.whole n))
  | decimal (d : Decimal) : IsExpression (leaf (.decimal d))
  | unary {o x : Node} (ho : IsOperator signOperators o) (hx : IsExpression x) :
      IsExpression (mk .unary [o, x])
  | binary {l o r : Node} (hl : IsExpression l) (ho : IsOperator joiningOperators o)
      (hr : IsExpression r) : IsExpression (mk .binary [l, o, r])
  | call (named : Bool) {callee : Node} {args : List Node} (hcallee : IsExpression callee)
      (hargs : ∀ a ∈ args, IsExpression a) : IsExpression (mk (.call named) (callee :: args))
  | other (label : String) (parts : List Node) : IsExpression (other label parts)

end Node

open Node

/-! ## Operands and operators -/

/-- What stands before the goal is an expression. -/
def Goal.Continues : Goal → Prop
  | .chainFrom _ left | .primaryFrom left => left.IsExpression
  | _ => True

/-- A reader that gives trees of the language for all goals. -/
def ReadsExpressions (read : Goal → Reader) : Prop :=
  ∀ (g : Goal) ts x rest, g.Continues → read g ts = some (x, rest) → x.IsExpression

section

variable {read : Goal → Reader} {ts rest : List Token} {x : Node}

theorem isExpression_of_starred (ih : ReadsExpressions read) {operand otherwise : Goal}
    (hgoal : otherwise.Continues) (h : readStarred read operand otherwise ts = some (x, rest)) :
    x.IsExpression := by
  unfold readStarred at h
  split at h
  · obtain ⟨⟨y, r⟩, -, heq⟩ := Option.map_eq_some_iff.mp h
    cases heq
    exact .other _ _
  · exact ih _ _ _ _ hgoal h

theorem isExpression_of_named (ih : ReadsExpressions read)
    (h : readNamed read ts = some (x, rest)) : x.IsExpression := by
  unfold readNamed at h
  split at h
  · split at h
    · cases h
    · obtain ⟨⟨y, r⟩, -, heq⟩ := Option.map_eq_some_iff.mp h
      cases heq
      exact .other _ _
  · exact ih .expression _ _ _ trivial h

theorem isExpression_of_expression (ih : ReadsExpressions read)
    (h : readExpression read ts = some (x, rest)) : x.IsExpression := by
  unfold readExpression at h
  split at h
  · exact ih .lambda _ _ _ trivial h
  · obtain ⟨⟨body, r⟩, hbody, h⟩ := Option.bind_eq_some_iff.mp h
    simp only at h
    split at h
    · cases h
      exact ih (.chain 0) _ _ _ trivial hbody
    · obtain ⟨⟨test, r'⟩, -, h⟩ := Option.bind_eq_some_iff.mp h
      obtain ⟨r'', -, h⟩ := Option.bind_eq_some_iff.mp h
      obtain ⟨⟨otherwise, r'''⟩, -, h⟩ := Option.bind_eq_some_iff.mp h
      cases h
      exact .other _ _

theorem isExpression_of_chain (ih : ReadsExpressions read) {k : ℕ}
    (h : readChain read k ts = some (x, rest)) : x.IsExpression := by
  unfold readChain at h
  split at h
  · split at h
    · obtain ⟨⟨y, r⟩, hy, heq⟩ := Option.map_eq_some_iff.mp h
      cases heq
      exact .unary (.inr ⟨_, rfl⟩) (ih (.chain 2) _ _ _ trivial hy)
    · exact ih (.chain 3) _ _ _ trivial h
  · split at h
    · exact ih .factor _ _ _ trivial h
    · obtain ⟨⟨left, r⟩, hleft, h⟩ := Option.bind_eq_some_iff.mp h
      exact ih (.chainFrom k left) _ _ _ (ih (.chain (k + 1)) _ _ _ trivial hleft) h

theorem isOperator_of_operatorNode {s : Sign} {o : Node} (h : operatorNode s = some o) :
    IsOperator joiningOperators o := by
  cases s <;> cases h
  all_goals first
    | exact .inr ⟨_, rfl⟩
    | exact .inl ⟨_, by decide, rfl⟩

theorem isOperator_of_unaryNode {s : Sign} {o : Node} (h : unaryNode s = some o) :
    IsOperator signOperators o := by
  cases s <;> cases h
  all_goals first
    | exact .inr ⟨_, rfl⟩
    | exact .inl ⟨_, by decide, rfl⟩

/-- Two expressions are joined to one. -/
theorem isExpression_of_joinAt {k : ℕ} {join : Node → Node → Node} {l r : Node}
    (h : joinAt? k ts = some (join, rest)) (hl : l.IsExpression) (hr : r.IsExpression) :
    (join l r).IsExpression := by
  unfold joinAt? at h
  split at h
  · obtain ⟨_, -, heq⟩ := Option.map_eq_some_iff.mp h
    cases heq
    exact .other _ _
  split at h
  · obtain ⟨_, -, heq⟩ := Option.map_eq_some_iff.mp h
    cases heq
    exact .other _ _
  split at h
  · obtain ⟨_, -, heq⟩ := Option.map_eq_some_iff.mp h
    cases heq
    exact .other _ _
  split at h
  · split at h
    · obtain ⟨o, ho, heq⟩ := Option.map_eq_some_iff.mp h
      cases heq
      exact .binary hl (isOperator_of_operatorNode ho) hr
    · cases h
  · cases h

theorem isExpression_of_chainFrom (ih : ReadsExpressions read) {k : ℕ} {left : Node}
    (hleft : left.IsExpression) (h : readChainFrom read k left ts = some (x, rest)) :
    x.IsExpression := by
  unfold readChainFrom at h
  split at h
  · cases h
    exact hleft
  · rename_i join r hjoin
    obtain ⟨⟨right, r'⟩, hright, h⟩ := Option.bind_eq_some_iff.mp h
    refine ih (.chainFrom k (join left right)) _ _ _ ?_ h
    exact isExpression_of_joinAt hjoin hleft (ih (.chain (k + 1)) _ _ _ trivial hright)

theorem isExpression_of_factor (ih : ReadsExpressions read)
    (h : readFactor read ts = some (x, rest)) : x.IsExpression := by
  unfold readFactor at h
  split at h
  · split at h
    · rename_i o ho
      obtain ⟨⟨y, r⟩, hy, heq⟩ := Option.map_eq_some_iff.mp h
      cases heq
      exact .unary (isOperator_of_unaryNode ho) (ih .factor _ _ _ trivial hy)
    · exact ih .power _ _ _ trivial h
  · exact ih .power _ _ _ trivial h

theorem isExpression_of_power (ih : ReadsExpressions read)
    (h : readPower read ts = some (x, rest)) : x.IsExpression := by
  have hraised {base exponent : Node} {r r' : List Token} (hbase : base.IsExpression)
      (hexponent : read .factor r = some (exponent, r')) :
      (Node.mk .binary [base, .leaf (.operator .pow), exponent]).IsExpression :=
    .binary hbase (.inl ⟨.pow, by decide, rfl⟩) (ih .factor _ _ _ trivial hexponent)
  unfold readPower at h
  simp only at h
  split at h
  · obtain ⟨⟨base, r⟩, hbase, h⟩ := Option.bind_eq_some_iff.mp h
    obtain ⟨⟨y, r'⟩, -, heq⟩ := Option.map_eq_some_iff.mp hbase
    cases heq
    split at h
    · cases h
      exact .other _ _
    · obtain ⟨⟨exponent, r'⟩, hexponent, h⟩ := Option.bind_eq_some_iff.mp h
      cases h
      exact hraised (.other _ _) hexponent
  · obtain ⟨⟨base, r⟩, hbase, h⟩ := Option.bind_eq_some_iff.mp h
    have hbase := ih .primary _ _ _ trivial hbase
    split at h
    · cases h
      exact hbase
    · obtain ⟨⟨exponent, r'⟩, hexponent, h⟩ := Option.bind_eq_some_iff.mp h
      cases h
      exact hraised hbase hexponent

/-! ## Calls -/

theorem isExpression_of_argumentsAfter {k : ℕ} {named mapped flag : Bool} {y : Option Node}
    {xs : List Node}
    (hmore : ∀ named mapped ts xs flag rest,
      readArguments read true named mapped k ts = some (xs, flag, rest) →
        ∀ a ∈ xs, a.IsExpression)
    (hy : ∀ a ∈ y, a.IsExpression)
    (h : argumentsAfter read k named mapped y ts = some (xs, flag, rest)) :
    ∀ a ∈ xs, a.IsExpression := by
  unfold argumentsAfter at h
  split at h
  · cases h
    exact fun a ha => hy a (Option.mem_toList.mp ha)
  · obtain ⟨r, -, h⟩ := Option.bind_eq_some_iff.mp h
    obtain ⟨⟨ys, byName, r'⟩, hys, h⟩ := Option.bind_eq_some_iff.mp h
    cases h
    intro a ha
    rcases List.mem_append.mp ha with ha | ha
    · exact hy a (Option.mem_toList.mp ha)
    · exact hmore _ _ _ _ _ _ hys a ha

theorem isExpression_of_arguments (ih : ReadsExpressions read) {k : ℕ}
    {begun named mapped flag : Bool} {xs : List Node}
    (h : readArguments read begun named mapped k ts = some (xs, flag, rest)) :
    ∀ a ∈ xs, a.IsExpression := by
  induction k generalizing begun named mapped flag ts xs rest with
  | zero => cases h
  | succ k ihk =>
    have hafter {named mapped : Bool} {y : Option Node} {r : List Token}
        (hy : ∀ a ∈ y, a.IsExpression)
        (h : argumentsAfter read k named mapped y r = some (xs, flag, rest)) :
        ∀ a ∈ xs, a.IsExpression :=
      isExpression_of_argumentsAfter (fun _ _ _ _ _ _ h => ihk h) hy h
    unfold readArguments at h
    split at h
    · cases h
      intro a ha
      cases ha
    · simp only at h
      split at h
      · split at h
        · cases h
        · obtain ⟨⟨y, r⟩, -, h⟩ := Option.bind_eq_some_iff.mp h
          refine hafter (fun a ha => ?_) h
          cases ha
          exact .other _ _
      · obtain ⟨⟨y, r⟩, -, h⟩ := Option.bind_eq_some_iff.mp h
        exact hafter (y := none) (by simp) h
      · split at h
        · cases h
        · obtain ⟨⟨y, r⟩, -, h⟩ := Option.bind_eq_some_iff.mp h
          exact hafter (y := none) (by simp) h
      · split at h
        · cases h
        · obtain ⟨⟨y, r⟩, hy, h⟩ := Option.bind_eq_some_iff.mp h
          simp only at h
          split at h
          · refine hafter (fun a ha => ?_) h
            cases ha
            exact ih .named _ _ _ trivial hy
          · obtain ⟨⟨loops, r'⟩, -, h⟩ := Option.bind_eq_some_iff.mp h
            obtain ⟨r'', -, h⟩ := Option.bind_eq_some_iff.mp h
            cases h
            intro a ha
            rw [List.mem_singleton.mp ha]
            exact .other _ _

theorem isExpression_of_primaryFrom (ih : ReadsExpressions read) {left : Node}
    (hleft : left.IsExpression) (h : readPrimaryFrom read left ts = some (x, rest)) :
    x.IsExpression := by
  unfold readPrimaryFrom at h
  split at h
  · split at h
    · cases h
    · exact ih (.primaryFrom _) _ _ _ (.other _ _) h
  · obtain ⟨⟨called, r⟩, hcall, h⟩ := Option.bind_eq_some_iff.mp h
    obtain ⟨⟨xs, named, r'⟩, hargs, heq⟩ := Option.map_eq_some_iff.mp hcall
    cases heq
    exact ih (.primaryFrom _) _ _ _ (.call named hleft (isExpression_of_arguments ih hargs)) h
  · obtain ⟨⟨indices, comma, r⟩, -, h⟩ := Option.bind_eq_some_iff.mp h
    obtain ⟨r', -, h⟩ := Option.bind_eq_some_iff.mp h
    exact ih (.primaryFrom _) _ _ _ (.other _ _) h
  · cases h
    exact hleft

/-! ## Brackets and other constructs -/

theorem isExpression_of_slice (ih : ReadsExpressions read)
    (h : readSlice read ts = some (x, rest)) : x.IsExpression := by
  unfold readSlice at h
  obtain ⟨⟨y, r⟩, hfirst, h⟩ := Option.bind_eq_some_iff.mp h
  have hy : y.IsExpression := by
    split at hfirst
    · cases hfirst
      exact .other _ _
    · exact ih .named _ _ _ trivial hfirst
  simp only at h
  split at h
  · split at h
    · cases h
    · cases h
      exact hy
  · split at h
    · cases h
    · obtain ⟨r', -, h⟩ := Option.bind_eq_some_iff.mp h
      split at h
      · cases h
        exact .other _ _
      · obtain ⟨r'', -, heq⟩ := Option.map_eq_some_iff.mp h
        cases heq
        exact .other _ _

theorem isExpression_of_bracket {element : Goal} {close : Sign} {label comprehension : String}
    {first : Node} (h : readBracket read element close label comprehension first ts =
      some (x, rest)) : x.IsExpression := by
  unfold readBracket at h
  split at h
  · cases h
    exact .other _ _
  · split at h
    · split at h
      · cases h
        exact .other _ _
      · obtain ⟨⟨xs, comma, r⟩, -, h⟩ := Option.bind_eq_some_iff.mp h
        obtain ⟨r', -, h⟩ := Option.bind_eq_some_iff.mp h
        cases h
        exact .other _ _
    · split at h
      · cases h
      · obtain ⟨⟨loops, r⟩, -, h⟩ := Option.bind_eq_some_iff.mp h
        obtain ⟨r', -, h⟩ := Option.bind_eq_some_iff.mp h
        cases h
        exact .other _ _

theorem isExpression_of_round (ih : ReadsExpressions read)
    (h : readRound read ts = some (x, rest)) : x.IsExpression := by
  unfold readRound at h
  split at h
  · cases h
    exact .other _ _
  · obtain ⟨⟨y, r⟩, -, h⟩ := Option.bind_eq_some_iff.mp h
    obtain ⟨r', -, h⟩ := Option.bind_eq_some_iff.mp h
    cases h
    exact .other _ _
  · cases h
    exact .other _ _
  · obtain ⟨⟨ys, comma, r⟩, -, h⟩ := Option.bind_eq_some_iff.mp h
    obtain ⟨r', -, h⟩ := Option.bind_eq_some_iff.mp h
    cases h
    exact .other _ _
  · obtain ⟨⟨y, r⟩, hy, h⟩ := Option.bind_eq_some_iff.mp h
    simp only at h
    split at h
    · split at h
      · cases h
      · cases h
        exact ih .item _ _ _ trivial hy
    · exact isExpression_of_bracket h

theorem isExpression_of_square (h : readSquare read ts = some (x, rest)) : x.IsExpression := by
  unfold readSquare at h
  split at h
  · cases h
    exact .other _ _
  · obtain ⟨⟨y, r⟩, -, h⟩ := Option.bind_eq_some_iff.mp h
    exact isExpression_of_bracket h

theorem isExpression_of_curly (h : readCurly read ts = some (x, rest)) : x.IsExpression := by
  unfold readCurly at h
  split at h
  · cases h
    exact .other _ _
  · obtain ⟨⟨y, r⟩, -, h⟩ := Option.bind_eq_some_iff.mp h
    exact isExpression_of_bracket h
  · obtain ⟨⟨y, r⟩, -, h⟩ := Option.bind_eq_some_iff.mp h
    simp only at h
    split at h
    · exact isExpression_of_bracket h
    · split at h
      · cases h
      · obtain ⟨⟨value, r'⟩, -, h⟩ := Option.bind_eq_some_iff.mp h
        exact isExpression_of_bracket h

theorem isExpression_of_atom (ih : ReadsExpressions read)
    (h : readAtom read ts = some (x, rest)) : x.IsExpression := by
  unfold readAtom at h
  split at h
  case h_4 =>
    split at h
    · cases h
    · cases h
      exact .name _
  case h_5 => cases h; exact .whole _
  case h_6 => cases h; exact .decimal _
  case h_9 =>
    obtain ⟨y, hy, heq⟩ := Option.map_eq_some_iff.mp h
    cases heq
    unfold quotedNode at hy
    split at hy
    · cases hy
    · split at hy <;> cases hy <;> exact .other _ _
  case h_10 => exact isExpression_of_round ih h
  case h_11 => exact isExpression_of_square h
  case h_12 => exact isExpression_of_curly h
  case h_13 => cases h
  all_goals
    cases h
    exact .other _ _

theorem isExpression_of_loops (h : readLoops read ts = some (x, rest)) : x.IsExpression := by
  unfold readLoops at h
  obtain ⟨⟨first, r⟩, -, h⟩ := Option.bind_eq_some_iff.mp h
  simp only at h
  split at h
  · cases h
  · cases h
    exact .other _ _

theorem isExpression_of_entry (h : readEntry read ts = some (x, rest)) : x.IsExpression := by
  unfold readEntry at h
  split at h
  · obtain ⟨⟨y, r⟩, -, heq⟩ := Option.map_eq_some_iff.mp h
    cases heq
    exact .other _ _
  · obtain ⟨⟨key, r⟩, -, h⟩ := Option.bind_eq_some_iff.mp h
    obtain ⟨r', -, h⟩ := Option.bind_eq_some_iff.mp h
    obtain ⟨⟨value, r''⟩, -, h⟩ := Option.bind_eq_some_iff.mp h
    cases h
    exact .other _ _

/-- Each rule gives trees of the language, if the rules that it uses do. -/
theorem ReadsExpressions.rule (ih : ReadsExpressions read) :
    ReadsExpressions (QuantumGates.rule read) := by
  intro g ts x rest hg h
  cases g with
  | named => exact isExpression_of_named ih h
  | item =>
    have hnamed : Goal.Continues .named := trivial
    exact isExpression_of_starred ih hnamed h
  | expression => exact isExpression_of_expression ih h
  | chain k => exact isExpression_of_chain ih h
  | chainFrom k left => exact isExpression_of_chainFrom ih hg h
  | factor => exact isExpression_of_factor ih h
  | power => exact isExpression_of_power ih h
  | primary =>
    obtain ⟨⟨y, r⟩, hy, h⟩ := Option.bind_eq_some_iff.mp h
    exact ih (.primaryFrom y) _ _ _ (ih .atom _ _ _ trivial hy) h
  | primaryFrom left => exact isExpression_of_primaryFrom ih hg h
  | atom => exact isExpression_of_atom ih h
  | target =>
    obtain ⟨⟨y, r⟩, hy, h⟩ := Option.bind_eq_some_iff.mp h
    simp only at h
    split at h
    · cases h
      exact ih .primary _ _ _ trivial hy
    · cases h
  | slice => exact isExpression_of_slice ih h
  | lambda =>
    obtain ⟨r, -, h⟩ := Option.bind_eq_some_iff.mp h
    obtain ⟨⟨body, r'⟩, -, h⟩ := Option.bind_eq_some_iff.mp h
    cases h
    exact .other _ _
  | loops => exact isExpression_of_loops h
  | entry => exact isExpression_of_entry h

end

theorem readsExpressions (n : ℕ) : ReadsExpressions (read n) := by
  induction n with
  | zero => nofun
  | succ n ih => exact ih.rule

theorem isExpression_of_commaList {n k : ℕ} {closers : List Sign} {ts rest : List Token}
    {xs : List Node} {comma : Bool}
    (h : commaList (read n .expression) closers k ts = some (xs, comma, rest)) :
    ∀ x ∈ xs, x.IsExpression := by
  induction k generalizing ts xs comma rest with
  | zero => cases h
  | succ k ih =>
    unfold commaList at h
    obtain ⟨⟨y, r⟩, hfirst, h⟩ := Option.bind_eq_some_iff.mp h
    have hy := readsExpressions n .expression _ _ _ trivial hfirst
    simp only at h
    split at h
    · cases h
      exact fun x hx => List.mem_singleton.mp hx ▸ hy
    · split at h
      · cases h
        exact fun x hx => List.mem_singleton.mp hx ▸ hy
      · obtain ⟨⟨ys, comma', r'⟩, hys, h⟩ := Option.bind_eq_some_iff.mp h
        cases h
        intro x hx
        rcases List.mem_cons.mp hx with rfl | hx
        · exact hy
        · exact ih hys x hx

/-- What is read from words is a tree of the language. -/
theorem isExpression_of_checked? {ts : List Token} {x : Node} (h : Node.checked? ts = some x) :
    x.IsExpression := by
  unfold Node.checked? readAll? at h
  obtain ⟨⟨xs, comma, rest⟩, hlist, h⟩ := Option.bind_eq_some_iff.mp h
  have hxs := isExpression_of_commaList hlist
  simp only at h
  split at h
  · cases h
  · split at h
    · cases h
      exact hxs _ (List.mem_singleton_self _)
    · cases h
      exact .other _ _

end QuantumGates
