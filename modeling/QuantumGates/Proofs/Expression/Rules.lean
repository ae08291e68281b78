-- What a rule of the grammar did when its tree is arithmetic. Every construct that is not
-- arithmetic leaves a node of its own in the tree, so a plain tree tells which way each rule
-- took. There is one such lemma for each rule that arithmetic needs.
import QuantumGates.Proofs.Expression.Tree

namespace QuantumGates

open Node

variable {n : ℕ} {ts rest : List Token} {x : Node}

/-! ## Heads -/

theorem afterSign?_eq_some {s : Sign} {r : List Token} :
    afterSign? s ts = some r ↔ ts = .sign s :: r := by
  unfold afterSign?
  split
  · rename_i t u
    by_cases h : t = s
    · simp [h]
    · simp [h]
  · rename_i hno
    constructor
    · intro h
      cases h
    · rintro rfl
      exact absurd rfl (hno s r)

theorem afterWord?_eq_some {w : String} {r : List Token} :
    afterWord? w ts = some r ↔ ts = .name w :: r := by
  unfold afterWord?
  split
  · rename_i t u
    by_cases h : t = w
    · simp [h]
    · simp [h]
  · rename_i hno
    constructor
    · intro h
      cases h
    · rintro rfl
      exact absurd rfl (hno w r)

/-! ## Expressions -/

theorem read_succ (n : ℕ) (g : Goal) : read (n + 1) g = rule (read n) g := rfl

theorem not_plain_of_read_lambda (h : read n .lambda ts = some (x, rest)) : ¬ x.Plain := by
  cases n with
  | zero => cases h
  | succ n =>
    rw [read_succ] at h
    obtain ⟨r, -, h⟩ := Option.bind_eq_some_iff.mp h
    obtain ⟨⟨body, r'⟩, -, h⟩ := Option.bind_eq_some_iff.mp h
    cases h
    exact not_plain_other _ _

/-- A name that is given a value in passing begins here. -/
def startsDefinition : List Token → Bool
  | .name _ :: .sign .define :: _ => true
  | _ => false

theorem readNamed_of_not_definition {read : Goal → Reader} (h : startsDefinition ts = false) :
    readNamed read ts = read .expression ts := by
  unfold readNamed
  split
  · cases h
  · rfl

theorem read_named (h : read (n + 1) .named ts = some (x, rest)) (hx : x.Plain) :
    startsDefinition ts = false ∧ read n .expression ts = some (x, rest) := by
  rw [read_succ] at h
  unfold rule readNamed at h
  simp only at h
  split at h
  · split at h
    · cases h
    · obtain ⟨⟨y, r⟩, -, heq⟩ := Option.map_eq_some_iff.mp h
      cases heq
      exact absurd hx (not_plain_other _ _)
  · rename_i hno
    refine ⟨?_, h⟩
    unfold startsDefinition
    split
    · exact absurd rfl (hno _ _)
    · rfl

theorem read_named_of (hdef : startsDefinition ts = false)
    (h : read n .expression ts = some (x, rest)) : read (n + 1) .named ts = some (x, rest) := by
  rw [read_succ]
  exact (readNamed_of_not_definition hdef).trans h

theorem read_item (h : read (n + 1) .item ts = some (x, rest)) (hx : x.Plain) :
    afterSign? .star ts = none ∧ read n .named ts = some (x, rest) := by
  rw [read_succ] at h
  unfold rule readStarred at h
  simp only at h
  split at h
  · obtain ⟨⟨y, r⟩, -, heq⟩ := Option.map_eq_some_iff.mp h
    cases heq
    exact absurd hx (not_plain_other _ _)
  · rename_i hstar
    exact ⟨hstar, h⟩

theorem read_item_of (hstar : afterSign? .star ts = none)
    (h : read n .named ts = some (x, rest)) : read (n + 1) .item ts = some (x, rest) := by
  rw [read_succ]
  unfold rule readStarred
  simp only [hstar, h]

theorem read_expression (h : read (n + 1) .expression ts = some (x, rest)) (hx : x.Plain) :
    afterWord? "lambda" ts = none ∧ read n (.chain 0) ts = some (x, rest) ∧
      afterWord? "if" rest = none := by
  rw [read_succ] at h
  unfold rule readExpression at h
  simp only at h
  split at h
  · exact absurd hx (not_plain_of_read_lambda h)
  · rename_i hlambda
    obtain ⟨⟨body, r⟩, hbody, h⟩ := Option.bind_eq_some_iff.mp h
    simp only at h
    split at h
    · rename_i hif
      cases h
      exact ⟨hlambda, hbody, hif⟩
    · obtain ⟨⟨test, r1⟩, -, h⟩ := Option.bind_eq_some_iff.mp h
      obtain ⟨r2, -, h⟩ := Option.bind_eq_some_iff.mp h
      obtain ⟨⟨otherwise, r3⟩, -, h⟩ := Option.bind_eq_some_iff.mp h
      cases h
      exact absurd hx (not_plain_other _ _)

theorem read_expression_of (hlambda : afterWord? "lambda" ts = none)
    (h : read n (.chain 0) ts = some (x, rest)) (hif : afterWord? "if" rest = none) :
    read (n + 1) .expression ts = some (x, rest) := by
  rw [read_succ]
  unfold rule readExpression
  simp only [hlambda, h, Option.bind_eq_bind, Option.bind_some, hif]

/-! ## Chains -/

theorem read_chain {k : ℕ} (h2 : k ≠ 2) (h10 : k ≠ 10)
    (h : read (n + 1) (.chain k) ts = some (x, rest)) :
    ∃ left r, read n (.chain (k + 1)) ts = some (left, r) ∧
      read n (.chainFrom k left) r = some (x, rest) := by
  rw [read_succ] at h
  unfold rule readChain at h
  simp only at h
  rw [if_neg h2, if_neg h10] at h
  obtain ⟨⟨left, r⟩, hleft, h⟩ := Option.bind_eq_some_iff.mp h
  exact ⟨left, r, hleft, h⟩

theorem read_chain_of {k : ℕ} {left : Node} {r : List Token} (h2 : k ≠ 2) (h10 : k ≠ 10)
    (hleft : read n (.chain (k + 1)) ts = some (left, r))
    (h : read n (.chainFrom k left) r = some (x, rest)) :
    read (n + 1) (.chain k) ts = some (x, rest) := by
  rw [read_succ]
  unfold rule readChain
  simp only
  rw [if_neg h2, if_neg h10, hleft]
  exact h

theorem read_chain_two (h : read (n + 1) (.chain 2) ts = some (x, rest)) (hx : x.Plain) :
    afterWord? "not" ts = none ∧ read n (.chain 3) ts = some (x, rest) := by
  rw [read_succ] at h
  unfold rule readChain at h
  simp only [↓reduceIte] at h
  split at h
  · obtain ⟨⟨y, r⟩, -, heq⟩ := Option.map_eq_some_iff.mp h
    cases heq
    rw [plain_unary] at hx
    exact absurd hx.1 (not_plain_leaf_other _)
  · rename_i hnot
    exact ⟨hnot, h⟩

theorem read_chain_two_of (hnot : afterWord? "not" ts = none)
    (h : read n (.chain 3) ts = some (x, rest)) : read (n + 1) (.chain 2) ts = some (x, rest) := by
  rw [read_succ]
  unfold rule readChain
  simp only [↓reduceIte, hnot, h]

theorem read_chain_ten (h : read (n + 1) (.chain 10) ts = some (x, rest)) :
    read n .factor ts = some (x, rest) := h

theorem read_chain_ten_of (h : read n .factor ts = some (x, rest)) :
    read (n + 1) (.chain 10) ts = some (x, rest) := h

theorem read_chainFrom {k : ℕ} {left : Node}
    (h : read (n + 1) (.chainFrom k left) ts = some (x, rest)) :
    (joinAt? k ts = none ∧ x = left ∧ rest = ts) ∨
      ∃ join r right r', joinAt? k ts = some (join, r) ∧
        read n (.chain (k + 1)) r = some (right, r') ∧
        read n (.chainFrom k (join left right)) r' = some (x, rest) := by
  rw [read_succ] at h
  unfold rule readChainFrom at h
  simp only at h
  split at h
  · rename_i hjoin
    cases h
    exact .inl ⟨hjoin, rfl, rfl⟩
  · rename_i join r hjoin
    obtain ⟨⟨right, r'⟩, hright, h⟩ := Option.bind_eq_some_iff.mp h
    exact .inr ⟨join, r, right, r', hjoin, hright, h⟩

theorem read_chainFrom_of_none {k : ℕ} {left : Node} (h : joinAt? k ts = none) :
    read (n + 1) (.chainFrom k left) ts = some (left, ts) := by
  rw [read_succ]
  unfold rule readChainFrom
  simp only [h]

theorem read_chainFrom_of_join {k : ℕ} {left right : Node} {join : Node → Node → Node}
    {r r' : List Token} (hjoin : joinAt? k ts = some (join, r))
    (hright : read n (.chain (k + 1)) r = some (right, r'))
    (h : read n (.chainFrom k (join left right)) r' = some (x, rest)) :
    read (n + 1) (.chainFrom k left) ts = some (x, rest) := by
  rw [read_succ]
  unfold rule readChainFrom
  simp only [hjoin, hright, Option.bind_eq_bind, Option.bind_some, h]

/-- An operator that joins operands to something plain is one of arithmetic, and its operands
are plain. -/
theorem joinAt?_plain {k : ℕ} {r : List Token} {join : Node → Node → Node} {left right : Node}
    (h : joinAt? k ts = some (join, r)) (hx : (join left right).Plain) :
    ∃ s o, ts = .sign s :: r ∧ (joiningSigns k).contains s = true ∧
      operatorNode s = some (.leaf (.operator o)) ∧
      join = (fun l r => .mk .binary [l, .leaf (.operator o), r]) ∧ left.Plain ∧ right.Plain := by
  unfold joinAt? at h
  by_cases h0 : k = 0
  · rw [if_pos h0] at h
    obtain ⟨r', -, heq⟩ := Option.map_eq_some_iff.mp h
    cases heq
    exact absurd hx (not_plain_other _ _)
  by_cases h1 : k = 1
  · rw [if_neg h0, if_pos h1] at h
    obtain ⟨r', -, heq⟩ := Option.map_eq_some_iff.mp h
    cases heq
    exact absurd hx (not_plain_other _ _)
  by_cases h3 : k = 3
  · rw [if_neg h0, if_neg h1, if_pos h3] at h
    obtain ⟨r', -, heq⟩ := Option.map_eq_some_iff.mp h
    cases heq
    exact absurd hx (not_plain_other _ _)
  rw [if_neg h0, if_neg h1, if_neg h3] at h
  split at h
  · rename_i s r'
    split at h
    · rename_i hcontains
      obtain ⟨node, hnode, heq⟩ := Option.map_eq_some_iff.mp h
      cases heq
      rw [plain_binary] at hx
      cases s <;> simp only [operatorNode, Option.some.injEq, reduceCtorEq] at hnode <;>
        subst hnode <;>
        first
          | exact absurd hx.2.1 (not_plain_leaf_other _)
          | exact ⟨_, _, rfl, hcontains, rfl, rfl, hx.1, hx.2.2⟩
    · cases h
  · cases h

theorem plain_of_chainFrom {k : ℕ} {left : Node}
    (h : read n (.chainFrom k left) ts = some (x, rest)) (hx : x.Plain) : left.Plain := by
  induction n generalizing left ts with
  | zero => cases h
  | succ n ih =>
    rcases read_chainFrom h with ⟨-, rfl, -⟩ | ⟨join, r, right, r', hjoin, -, h⟩
    · exact hx
    · obtain ⟨s, o, -, -, -, -, hl, -⟩ := joinAt?_plain hjoin (ih h)
      exact hl

/-! ## Factors and powers -/

theorem read_factor (h : read (n + 1) .factor ts = some (x, rest)) (hx : x.Plain) :
    (∃ s o r y, ts = .sign s :: r ∧ unaryNode s = some (.leaf (.operator o)) ∧
      read n .factor r = some (y, rest) ∧ x = .mk .unary [.leaf (.operator o), y]) ∨
    (∀ s r, ts = .sign s :: r → unaryNode s = none) ∧ read n .power ts = some (x, rest) := by
  rw [read_succ] at h
  unfold rule readFactor at h
  simp only at h
  split at h
  · rename_i s r
    split at h
    · rename_i node hnode
      obtain ⟨⟨y, r'⟩, hy, heq⟩ := Option.map_eq_some_iff.mp h
      cases heq
      rw [plain_unary] at hx
      cases s <;> simp only [unaryNode, Option.some.injEq, reduceCtorEq] at hnode <;>
        subst hnode <;>
        first
          | exact absurd hx.1 (not_plain_leaf_other _)
          | exact .inl ⟨_, _, r, y, rfl, rfl, hy, rfl⟩
    · rename_i hnone
      refine .inr ⟨?_, h⟩
      intro s' r' heq
      cases heq
      exact hnone
  · rename_i hno
    refine .inr ⟨?_, h⟩
    intro s r heq
    exact absurd heq (hno s r)

theorem read_factor_of_sign {s : Sign} {o y : Node} {r : List Token}
    (ho : unaryNode s = some o) (h : read n .factor r = some (y, rest)) :
    read (n + 1) .factor (.sign s :: r) = some (.mk .unary [o, y], rest) := by
  rw [read_succ]
  unfold rule readFactor
  simp only [ho, h]
  rfl

theorem read_factor_of_none (hno : ∀ s r, ts = .sign s :: r → unaryNode s = none)
    (h : read n .power ts = some (x, rest)) : read (n + 1) .factor ts = some (x, rest) := by
  rw [read_succ]
  unfold rule readFactor
  simp only
  split
  · rename_i s r
    rw [hno s r rfl]
    exact h
  · exact h

theorem read_power (h : read (n + 1) .power ts = some (x, rest)) (hx : x.Plain) :
    afterWord? "await" ts = none ∧ ∃ base r, read n .primary ts = some (base, r) ∧
      ((afterSign? .power r = none ∧ x = base ∧ rest = r) ∨
        ∃ r' e, r = .sign .power :: r' ∧ read n .factor r' = some (e, rest) ∧
          x = .mk .binary [base, .leaf (.operator .pow), e]) := by
  rw [read_succ] at h
  unfold rule readPower at h
  simp only at h
  split at h
  · obtain ⟨⟨base, r⟩, hbase, h⟩ := Option.bind_eq_some_iff.mp h
    obtain ⟨⟨y, r'⟩, -, heq⟩ := Option.map_eq_some_iff.mp hbase
    cases heq
    simp only at h
    split at h
    · cases h
      exact absurd hx (not_plain_other _ _)
    · obtain ⟨⟨e, r''⟩, -, h⟩ := Option.bind_eq_some_iff.mp h
      cases h
      rw [plain_binary] at hx
      exact absurd hx.1 (not_plain_other _ _)
  · rename_i hawait
    obtain ⟨⟨base, r⟩, hbase, h⟩ := Option.bind_eq_some_iff.mp h
    refine ⟨hawait, base, r, hbase, ?_⟩
    simp only at h
    split at h
    · rename_i hpower
      cases h
      exact .inl ⟨hpower, rfl, rfl⟩
    · rename_i r' hpower
      obtain ⟨⟨e, r''⟩, he, h⟩ := Option.bind_eq_some_iff.mp h
      cases h
      exact .inr ⟨r', e, afterSign?_eq_some.mp hpower, he, rfl⟩

theorem read_power_of_none {base : Node} {r : List Token} (hawait : afterWord? "await" ts = none)
    (h : read n .primary ts = some (base, r)) (hpower : afterSign? .power r = none) :
    read (n + 1) .power ts = some (base, r) := by
  rw [read_succ]
  unfold rule readPower
  simp only [hawait, h, Option.bind_eq_bind, Option.bind_some, hpower]

theorem read_power_of_power {base e : Node} {r : List Token}
    (hawait : afterWord? "await" ts = none)
    (h : read n .primary ts = some (base, .sign .power :: r))
    (he : read n .factor r = some (e, rest)) :
    read (n + 1) .power ts = some (.mk .binary [base, .leaf (.operator .pow), e], rest) := by
  have hpower : afterSign? .power (.sign .power :: r) = some r := rfl
  rw [read_succ]
  unfold rule readPower
  simp only [hawait, h, Option.bind_eq_bind, Option.bind_some, hpower, he]

/-! ## Primaries -/

theorem read_primary (h : read (n + 1) .primary ts = some (x, rest)) :
    ∃ y r, read n .atom ts = some (y, r) ∧ read n (.primaryFrom y) r = some (x, rest) := by
  rw [read_succ] at h
  obtain ⟨⟨y, r⟩, hy, h⟩ := Option.bind_eq_some_iff.mp h
  exact ⟨y, r, hy, h⟩

theorem read_primary_of {y : Node} {r : List Token} (hy : read n .atom ts = some (y, r))
    (h : read n (.primaryFrom y) r = some (x, rest)) :
    read (n + 1) .primary ts = some (x, rest) := by
  rw [read_succ]
  unfold rule
  simp only [hy, Option.bind_eq_bind, Option.bind_some, h]

/-- Nothing follows a primary as a part of it. -/
def endsPrimary : List Token → Bool
  | .sign .dot :: .name _ :: _ => false
  | .sign .openRound :: _ => false
  | .sign .openSquare :: _ => false
  | _ => true

theorem readPrimaryFrom_of_ends {read : Goal → Reader} {left : Node} (h : endsPrimary ts = true) :
    readPrimaryFrom read left ts = some (left, ts) := by
  unfold readPrimaryFrom
  split
  · cases h
  · cases h
  · cases h
  · rfl

theorem read_primaryFrom_of_call {left : Node} {r r' : List Token} {xs : List Node}
    (hargs : readArguments (read n) false false false (r.length + 1) r = some (xs, false, r'))
    (h : read n (.primaryFrom (.mk (.call false) (left :: xs))) r' = some (x, rest)) :
    read (n + 1) (.primaryFrom left) (.sign .openRound :: r) = some (x, rest) := by
  rw [read_succ]
  unfold rule readPrimaryFrom readCall
  simp only [hargs, Option.map_some, Option.bind_eq_bind, Option.bind_some, h]

/-- What follows a primary as a part of it. -/
theorem read_primaryFrom_cases {left : Node}
    (h : read (n + 1) (.primaryFrom left) ts = some (x, rest)) :
    (endsPrimary ts = true ∧ x = left ∧ rest = ts) ∨
      (∃ left' r, ¬ left'.Plain ∧ read n (.primaryFrom left') r = some (x, rest)) ∨
      ∃ r xs named r', ts = .sign .openRound :: r ∧
        readArguments (read n) false false false (r.length + 1) r = some (xs, named, r') ∧
        read n (.primaryFrom (.mk (.call named) (left :: xs))) r' = some (x, rest) := by
  rw [read_succ] at h
  unfold rule readPrimaryFrom at h
  simp only at h
  split at h
  · split at h
    · cases h
    · exact .inr (.inl ⟨_, _, not_plain_other _ _, h⟩)
  · rename_i r
    obtain ⟨⟨call, r'⟩, hcall, h⟩ := Option.bind_eq_some_iff.mp h
    unfold readCall at hcall
    obtain ⟨⟨xs, named, r''⟩, hargs, heq⟩ := Option.map_eq_some_iff.mp hcall
    cases heq
    exact .inr (.inr ⟨r, xs, named, r', rfl, hargs, h⟩)
  · obtain ⟨⟨indices, comma, r⟩, -, h⟩ := Option.bind_eq_some_iff.mp h
    obtain ⟨r', -, h⟩ := Option.bind_eq_some_iff.mp h
    exact .inr (.inl ⟨_, _, not_plain_other _ _, h⟩)
  · rename_i hdot hround hsquare
    cases h
    refine .inl ⟨?_, rfl, rfl⟩
    unfold endsPrimary
    split
    · exact absurd rfl (hdot _ _)
    · exact absurd rfl (hround _)
    · exact absurd rfl (hsquare _)
    · rfl

theorem plain_of_primaryFrom {left : Node}
    (h : read n (.primaryFrom left) ts = some (x, rest)) (hx : x.Plain) : left.Plain := by
  induction n generalizing left ts with
  | zero => cases h
  | succ n ih =>
    rcases read_primaryFrom_cases h with
      ⟨-, rfl, -⟩ | ⟨left', r, hno, h⟩ | ⟨r, xs, named, r', -, -, h⟩
    · exact hx
    · exact absurd (ih h) hno
    · have hcall := ih h
      rw [plain_call] at hcall
      exact hcall.2.1

theorem read_primaryFrom {left : Node} (h : read (n + 1) (.primaryFrom left) ts = some (x, rest))
    (hx : x.Plain) :
    (endsPrimary ts = true ∧ x = left ∧ rest = ts) ∨
      ∃ r xs r', ts = .sign .openRound :: r ∧ AllPlain xs ∧
        readArguments (read n) false false false (r.length + 1) r = some (xs, false, r') ∧
        read n (.primaryFrom (.mk (.call false) (left :: xs))) r' = some (x, rest) := by
  rcases read_primaryFrom_cases h with hend | ⟨left', r, hno, h⟩ | ⟨r, xs, named, r', hts, hargs, h⟩
  · exact .inl hend
  · exact absurd (plain_of_primaryFrom h hx) hno
  · have hcall := plain_of_primaryFrom h hx
    rw [plain_call] at hcall
    obtain ⟨rfl, -, hxs⟩ := hcall
    exact .inr ⟨r, xs, r', hts, hxs, hargs, h⟩

/-! ## Arguments -/

section

variable {read : Goal → Reader} {begun named mapped flag : Bool} {k : ℕ} {xs : List Node}

/-- The end of a list of arguments, or a comma and further arguments, after an argument. -/
def argumentsAfter (read : Goal → Reader) (k : ℕ) (named mapped : Bool) (y : Option Node)
    (r : List Token) : Option (List Node × Bool × List Token) :=
  match afterSign? .closeRound r with
  | some r' => some (y.toList, named || mapped, r')
  | none => do
    let r' ← afterSign? .comma r
    let (ys, byName, r'') ← readArguments read true named mapped k r'
    some (y.toList ++ ys, byName, r'')

theorem argumentsAfter_cases {y : Option Node} {r : List Token}
    (h : argumentsAfter read k named mapped y r = some (xs, flag, rest)) :
    (r = .sign .closeRound :: rest ∧ xs = y.toList ∧ flag = (named || mapped)) ∨
      ∃ r' ys, r = .sign .comma :: r' ∧
        readArguments read true named mapped k r' = some (ys, flag, rest) ∧
        xs = y.toList ++ ys := by
  unfold argumentsAfter at h
  split at h
  · rename_i r' hclose
    cases h
    exact .inl ⟨afterSign?_eq_some.mp hclose, rfl, rfl⟩
  · obtain ⟨r', hcomma, h⟩ := Option.bind_eq_some_iff.mp h
    obtain ⟨⟨ys, byName, r''⟩, hys, h⟩ := Option.bind_eq_some_iff.mp h
    cases h
    exact .inr ⟨r', ys, afterSign?_eq_some.mp hcomma, hys, rfl⟩

theorem argumentsAfter_close (y : Node) (r : List Token) :
    argumentsAfter read k false false (some y) (.sign .closeRound :: r) = some ([y], false, r) :=
  rfl

theorem argumentsAfter_comma {y : Node} {ys : List Node} {r : List Token}
    (h : readArguments read true false false k r = some (ys, false, rest)) :
    argumentsAfter read k false false (some y) (.sign .comma :: r) =
      some (y :: ys, false, rest) := by
  have hclose : afterSign? .closeRound (.sign .comma :: r) = none := rfl
  have hcomma : afterSign? .comma (.sign .comma :: r) = some r := rfl
  unfold argumentsAfter
  simp only [hclose, hcomma, Option.bind_eq_bind, Option.bind_some, h]
  rfl

/-- No argument by name and no starred argument begins here. -/
def startsPositional : List Token → Bool
  | .sign .star :: _ => false
  | .sign .power :: _ => false
  | .name _ :: .sign .assign :: _ => false
  | _ => true

theorem readArguments_close (r : List Token) :
    readArguments read begun false false (k + 1) (.sign .closeRound :: r) =
      some ([], false, r) := rfl

/-- An argument by its place is a named expression, and what follows it comes after it. -/
theorem readArguments_positional {y : Node} {r : List Token}
    (hclose : afterSign? .closeRound ts = none) (hpos : startsPositional ts = true)
    (hy : read .named ts = some (y, r)) (hfor : begun = true ∨ afterFor? r = none) :
    readArguments read begun false false (k + 1) ts =
      argumentsAfter read k false false (some y) r := by
  have hnext : (begun || (afterFor? r).isNone) = true := by
    rcases hfor with rfl | h
    · rfl
    · rw [h, Option.isNone_none, Bool.or_true]
  unfold readArguments
  simp only [hclose]
  split
  · cases hpos
  · cases hpos
  · cases hpos
  · simp only [Bool.or_self, Bool.false_eq_true, ↓reduceIte, hy, Option.bind_eq_bind,
      Option.bind_some, hnext]
    rfl

/-- The end of the arguments, an argument given by name, or one given by its place. -/
theorem readArguments_cases
    (h : readArguments read begun named mapped (k + 1) ts = some (xs, flag, rest))
    (hx : AllPlain xs) :
    (ts = .sign .closeRound :: rest ∧ xs = [] ∧ flag = (named || mapped)) ∨
      (∃ named' mapped' r, (named' || mapped') = true ∧
        argumentsAfter read k named' mapped' none r = some (xs, flag, rest)) ∨
      ∃ y r, named = false ∧ mapped = false ∧ afterSign? .closeRound ts = none ∧
        startsPositional ts = true ∧ read .named ts = some (y, r) ∧
        (begun = true ∨ afterFor? r = none) ∧
        argumentsAfter read k false false (some y) r = some (xs, flag, rest) := by
  unfold readArguments at h
  split at h
  · rename_i r hclose
    cases h
    exact .inl ⟨afterSign?_eq_some.mp hclose, rfl, rfl⟩
  · rename_i hclose
    simp only at h
    split at h
    · split at h
      · cases h
      · obtain ⟨⟨y, r⟩, -, h⟩ := Option.bind_eq_some_iff.mp h
        have hstar : argumentsAfter read k named mapped (some (.other "Starred" [y])) r =
            some (xs, flag, rest) := h
        rcases argumentsAfter_cases hstar with ⟨-, rfl, -⟩ | ⟨-, ys, -, -, rfl⟩
        · exact absurd hx.1 (not_plain_other _ _)
        · exact absurd hx.1 (not_plain_other _ _)
    · obtain ⟨⟨y, r⟩, -, h⟩ := Option.bind_eq_some_iff.mp h
      exact .inr (.inl ⟨named, true, r, Bool.or_true named, h⟩)
    · split at h
      · cases h
      · obtain ⟨⟨y, r⟩, -, h⟩ := Option.bind_eq_some_iff.mp h
        exact .inr (.inl ⟨true, mapped, r, Bool.true_or mapped, h⟩)
    · rename_i hstar hpower hassign
      split at h
      · cases h
      · rename_i hflags
        obtain ⟨rfl, rfl⟩ := Bool.or_eq_false_iff.mp (Bool.not_eq_true _ ▸ hflags)
        obtain ⟨⟨y, r⟩, hy, h⟩ := Option.bind_eq_some_iff.mp h
        simp only at h
        split at h
        · rename_i hnext
          refine .inr (.inr ⟨y, r, rfl, rfl, hclose, ?_, hy, ?_, h⟩)
          · unfold startsPositional
            split
            · exact absurd rfl (hstar _)
            · exact absurd rfl (hpower _)
            · exact absurd rfl (hassign _ _)
            · rfl
          · rwa [Bool.or_eq_true, Option.isNone_iff_eq_none] at hnext
        · obtain ⟨⟨loops, r'⟩, -, h⟩ := Option.bind_eq_some_iff.mp h
          obtain ⟨r'', -, h⟩ := Option.bind_eq_some_iff.mp h
          cases h
          exact absurd hx.1 (not_plain_other _ _)

/-- Once an argument was given by name, the call has arguments by name. -/
theorem readArguments_flag
    (h : readArguments read begun named mapped k ts = some (xs, flag, rest)) (hx : AllPlain xs)
    (hflag : (named || mapped) = true) : flag = true := by
  induction k generalizing begun named mapped ts xs with
  | zero => cases h
  | succ k ih =>
    rcases readArguments_cases h hx with ⟨-, -, heq⟩ | ⟨named', mapped', r, hflag', h⟩ |
      ⟨y, r, rfl, rfl, -⟩
    · rw [heq, hflag]
    · rcases argumentsAfter_cases h with ⟨-, -, heq⟩ | ⟨r', ys, -, h, rfl⟩
      · rw [heq, hflag']
      · exact ih h hx hflag'
    · cases hflag

/-- Arguments of a call without names are named expressions between commas. -/
theorem readArguments_plain
    (h : readArguments read begun false false (k + 1) ts = some (xs, false, rest))
    (hx : AllPlain xs) :
    (ts = .sign .closeRound :: rest ∧ xs = []) ∨
      ∃ y r, afterSign? .closeRound ts = none ∧ startsPositional ts = true ∧
        read .named ts = some (y, r) ∧ (begun = true ∨ afterFor? r = none) ∧
        ((r = .sign .closeRound :: rest ∧ xs = [y]) ∨
          ∃ r' ys, r = .sign .comma :: r' ∧
            readArguments read true false false k r' = some (ys, false, rest) ∧ xs = y :: ys) := by
  rcases readArguments_cases h hx with ⟨hts, hxs, -⟩ | ⟨named', mapped', r, hflag, h⟩ |
    ⟨y, r, -, -, hclose, hpos, hy, hfor, h⟩
  · exact .inl ⟨hts, hxs⟩
  · exfalso
    rcases argumentsAfter_cases h with ⟨-, -, heq⟩ | ⟨r', ys, -, h, rfl⟩
    · rw [hflag] at heq
      cases heq
    · cases readArguments_flag h hx hflag
  · refine .inr ⟨y, r, hclose, hpos, hy, hfor, ?_⟩
    rcases argumentsAfter_cases h with ⟨hr, hxs, -⟩ | ⟨r', ys, hr, h, hxs⟩
    · exact .inl ⟨hr, hxs⟩
    · exact .inr ⟨r', ys, hr, h, hxs⟩

end

/-! ## Atoms -/

theorem readBracket_not_plain {read : Goal → Reader} {element : Goal} {close : Sign}
    {label comprehension : String} {first : Node}
    (h : readBracket read element close label comprehension first ts = some (x, rest)) :
    ¬ x.Plain := by
  unfold readBracket at h
  split at h
  · cases h
    exact not_plain_other _ _
  · split at h
    · split at h
      · cases h
        exact not_plain_other _ _
      · obtain ⟨⟨xs, comma, r⟩, -, h⟩ := Option.bind_eq_some_iff.mp h
        obtain ⟨r', -, h⟩ := Option.bind_eq_some_iff.mp h
        cases h
        exact not_plain_other _ _
    · split at h
      · cases h
      · obtain ⟨⟨loops, r⟩, -, h⟩ := Option.bind_eq_some_iff.mp h
        obtain ⟨r', -, h⟩ := Option.bind_eq_some_iff.mp h
        cases h
        exact not_plain_other _ _

theorem readSquare_not_plain {read : Goal → Reader} (h : readSquare read ts = some (x, rest)) :
    ¬ x.Plain := by
  unfold readSquare at h
  split at h
  · cases h
    exact not_plain_other _ _
  · obtain ⟨⟨y, r⟩, -, h⟩ := Option.bind_eq_some_iff.mp h
    exact readBracket_not_plain h

theorem readCurly_not_plain {read : Goal → Reader} (h : readCurly read ts = some (x, rest)) :
    ¬ x.Plain := by
  unfold readCurly at h
  split at h
  · cases h
    exact not_plain_other _ _
  · obtain ⟨⟨y, r⟩, -, h⟩ := Option.bind_eq_some_iff.mp h
    exact readBracket_not_plain h
  · obtain ⟨⟨y, r⟩, -, h⟩ := Option.bind_eq_some_iff.mp h
    simp only at h
    split at h
    · exact readBracket_not_plain h
    · split at h
      · cases h
      · obtain ⟨⟨value, r'⟩, -, h⟩ := Option.bind_eq_some_iff.mp h
        exact readBracket_not_plain h

/-- A round bracket that is not closed at once and holds nothing that is yielded. -/
def startsItem : List Token → Bool
  | .sign .closeRound :: _ => false
  | .name "yield" :: _ => false
  | _ => true

theorem readRound_plain {read : Goal → Reader} (h : readRound read ts = some (x, rest))
    (hx : x.Plain) :
    startsItem ts = true ∧ read .item ts = some (x, .sign .closeRound :: rest) := by
  unfold readRound at h
  split at h
  · cases h
    exact absurd hx (not_plain_other _ _)
  · obtain ⟨⟨y, r⟩, -, h⟩ := Option.bind_eq_some_iff.mp h
    obtain ⟨r', -, h⟩ := Option.bind_eq_some_iff.mp h
    cases h
    exact absurd hx (not_plain_other _ _)
  · cases h
    exact absurd hx (not_plain_other _ _)
  · obtain ⟨⟨xs, comma, r⟩, -, h⟩ := Option.bind_eq_some_iff.mp h
    obtain ⟨r', -, h⟩ := Option.bind_eq_some_iff.mp h
    cases h
    exact absurd hx (not_plain_other _ _)
  · rename_i hclose hfrom hyield hyields
    obtain ⟨⟨y, r⟩, hy, h⟩ := Option.bind_eq_some_iff.mp h
    simp only at h
    split at h
    · rename_i r' hr
      split at h
      · cases h
      · cases h
        rw [← afterSign?_eq_some.mp hr]
        refine ⟨?_, hy⟩
        unfold startsItem
        split
        · exact absurd rfl (hclose _)
        · exact absurd rfl (hyields _)
        · rfl
    · exact absurd hx (readBracket_not_plain h)

theorem readRound_of_item {read : Goal → Reader} {r : List Token} (hts : startsItem ts = true)
    (hx : x.Plain) (h : read .item ts = some (x, .sign .closeRound :: r)) :
    readRound read ts = some (x, r) := by
  have hstarred : isStarred x = false := by
    cases x with
    | mk kind parts =>
      cases kind with
      | other label => exact absurd hx (not_plain_other label parts)
      | _ => rfl
  unfold startsItem at hts
  unfold readRound
  split at hts
  · cases hts
  · cases hts
  · split
    · simp_all
    · simp_all
    · simp_all
    · simp_all
    · have hclose : afterSign? .closeRound (.sign .closeRound :: r) = some r := rfl
      simp only [h, Option.bind_eq_bind, Option.bind_some, hclose, hstarred, Bool.false_eq_true,
        ↓reduceIte]

theorem readAtom_name {read : Goal → Reader} {id : String} {r : List Token}
    (h : reservedWords.contains id = false) :
    readAtom read (.name id :: r) = some (.leaf (.name id), r) := by
  unfold readAtom
  split
  · rename_i heq
    cases heq
    cases h
  · rename_i heq
    cases heq
    cases h
  · rename_i heq
    cases heq
    cases h
  · rename_i id' r' _ _ _ heq
    cases heq
    rw [h]
    rfl
  all_goals simp_all

/-- The words that an atom of arithmetic may be. -/
theorem read_atom (h : read (n + 1) .atom ts = some (x, rest)) (hx : x.Plain) :
    (∃ id, ts = .name id :: rest ∧ reservedWords.contains id = false ∧ x = .leaf (.name id)) ∨
      (∃ k, ts = .whole k :: rest ∧ x = .leaf (.whole k)) ∨
      (∃ d, ts = .decimal d :: rest ∧ x = .leaf (.decimal d)) ∨
      ∃ r, ts = .sign .openRound :: r ∧ startsItem r = true ∧
        read n .item r = some (x, .sign .closeRound :: rest) := by
  rw [read_succ] at h
  unfold rule readAtom at h
  simp only at h
  split at h
  · cases h
    exact absurd hx (not_plain_other _ _)
  · cases h
    exact absurd hx (not_plain_other _ _)
  · cases h
    exact absurd hx (not_plain_other _ _)
  · split at h
    · cases h
    · rename_i hreserved
      cases h
      exact .inl ⟨_, rfl, Bool.not_eq_true _ ▸ hreserved, rfl⟩
  · cases h
    exact .inr (.inl ⟨_, rfl, rfl⟩)
  · cases h
    exact .inr (.inr (.inl ⟨_, rfl, rfl⟩))
  · cases h
    exact absurd hx (not_plain_other _ _)
  · cases h
    exact absurd hx (not_plain_other _ _)
  · obtain ⟨y, hy, heq⟩ := Option.map_eq_some_iff.mp h
    cases heq
    unfold quotedNode at hy
    split at hy
    · cases hy
    · split at hy
      · cases hy
        exact absurd hx (not_plain_other _ _)
      · cases hy
        exact absurd hx (not_plain_other _ _)
  · rename_i r
    have hround := readRound_plain h hx
    exact .inr (.inr (.inr ⟨r, rfl, hround.1, hround.2⟩))
  · exact absurd hx (readSquare_not_plain h)
  · exact absurd hx (readCurly_not_plain h)
  · cases h

end QuantumGates
