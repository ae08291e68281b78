-- The grammar of arithmetic, apart from the reader. `Derives` says which words a rule uses for a
-- tree, without the words that come after and without a bound on how deep the rules are nested.
-- What the reader reads as arithmetic is derived, and what is derived is read wherever the rule may
-- stop, so the reader reads the grammar and nothing else.
import QuantumGates.Proofs.Expression.Atomic

namespace QuantumGates

open Node

/-! ## Derivations -/

/-- The words that are operands by themselves, with their nodes. -/
inductive AtomWord : Token → Node → Prop
  | name {id : String} : reservedWords.contains id = false →
      AtomWord (.name id) (.leaf (.name id))
  | whole {n : ℕ} : AtomWord (.whole n) (.leaf (.whole n))
  | decimal {d : Decimal} : AtomWord (.decimal d) (.leaf (.decimal d))

mutual

/-- The rule of a goal uses these words for the tree. The goals are those from a chain to the calls
after a primary. -/
inductive Derives : Goal → List Token → Node → Prop
  | chain {k : ℕ} {ts us : List Token} {l x : Node} : k < 10 → Derives (.chain (k + 1)) ts l →
      Derives (.chainFrom k l) us x → Derives (.chain k) (ts ++ us) x
  | factor {ts : List Token} {x : Node} : Derives .factor ts x → Derives (.chain 10) ts x
  | chainEnd {k : ℕ} {l : Node} : Derives (.chainFrom k l) [] l
  | join {k : ℕ} {s : Sign} {o : Operator} {ts us : List Token} {l r x : Node} :
      (joiningSigns k).contains s = true → operatorNode s = some (.leaf (.operator o)) →
      Derives (.chain (k + 1)) ts r →
      Derives (.chainFrom k (.mk .binary [l, .leaf (.operator o), r])) us x →
      Derives (.chainFrom k l) (.sign s :: (ts ++ us)) x
  | signed {s : Sign} {o : Operator} {ts : List Token} {x : Node} :
      unaryNode s = some (.leaf (.operator o)) → Derives .factor ts x →
      Derives .factor (.sign s :: ts) (.mk .unary [.leaf (.operator o), x])
  | unsigned {ts : List Token} {x : Node} : Derives .power ts x → Derives .factor ts x
  | base {ts : List Token} {x : Node} : Derives .primary ts x → Derives .power ts x
  | raised {ts us : List Token} {b e : Node} : Derives .primary ts b → Derives .factor us e →
      Derives .power (ts ++ .sign .power :: us) (.mk .binary [b, .leaf (.operator .pow), e])
  | word {t : Token} {us : List Token} {y x : Node} : AtomWord t y →
      Derives (.primaryFrom y) us x → Derives .primary (t :: us) x
  | bracket {ts us : List Token} {y x : Node} : Derives (.chain 0) ts y →
      Derives (.primaryFrom y) us x →
      Derives .primary (.sign .openRound :: (ts ++ .sign .closeRound :: us)) x
  | primaryEnd {y : Node} : Derives (.primaryFrom y) [] y
  | call {ts us : List Token} {y x : Node} {xs : List Node} : DerivesArguments ts xs →
      Derives (.primaryFrom (.mk (.call false) (y :: xs))) us x →
      Derives (.primaryFrom y) (.sign .openRound :: (ts ++ .sign .closeRound :: us)) x

/-- The words are arguments with these trees, a comma after each but the last one, which may have
one too. -/
inductive DerivesArguments : List Token → List Node → Prop
  | nil : DerivesArguments [] []
  | last {ts : List Token} {x : Node} : Derives (.chain 0) ts x → DerivesArguments ts [x]
  | cons {ts us : List Token} {x : Node} {xs : List Node} : Derives (.chain 0) ts x →
      DerivesArguments us xs → DerivesArguments (ts ++ .sign .comma :: us) (x :: xs)

end

/-- The goals that the grammar has. -/
def Goal.inGrammar : Goal → Bool
  | .chain k => decide (k ≤ 10)
  | .chainFrom k _ => decide (k < 10)
  | .factor | .power | .primary | .primaryFrom _ => true
  | _ => false

/-! ## What is read is derived -/

section

variable {n : ℕ} {ts rest : List Token} {x : Node}

/-- An argument or the content of a bracket is a chain of the lowest strength. -/
theorem exists_chain_of_named (h : read n .named ts = some (x, rest)) (hx : x.Plain) :
    ∃ m < n, read m (.chain 0) ts = some (x, rest) := by
  obtain ⟨m, rfl⟩ := read_pos h
  have hexpression := (read_named h hx).2
  obtain ⟨m, rfl⟩ := read_pos hexpression
  exact ⟨m, by omega, (read_expression hexpression hx).2.1⟩

theorem exists_chain_of_item (h : read n .item ts = some (x, rest)) (hx : x.Plain) :
    ∃ m < n, read m (.chain 0) ts = some (x, rest) := by
  obtain ⟨m, rfl⟩ := read_pos h
  obtain ⟨m', hm, hchain⟩ := exists_chain_of_named (read_item h hx).2 hx
  exact ⟨m', by omega, hchain⟩

/-- Every plain tree that is read within a depth is derived from the words that are used. -/
def ReadsGrammar (n : ℕ) : Prop :=
  ∀ g ts x rest, g.inGrammar = true → read n g ts = some (x, rest) → x.Plain →
    ∃ used, ts = used ++ rest ∧ Derives g used x

theorem derives_of_chain (ih : ∀ m < n + 1, ReadsGrammar m) {k : ℕ} (hk : k ≤ 10)
    (h : read (n + 1) (.chain k) ts = some (x, rest)) (hx : x.Plain) :
    ∃ used, ts = used ++ rest ∧ Derives (.chain k) used x := by
  by_cases h2 : k = 2
  · subst h2
    obtain ⟨used, rfl, hused⟩ := ih n (by omega) _ _ _ _ rfl (read_chain_two h hx).2 hx
    have hchain := Derives.chain (k := 2) (by omega) hused .chainEnd
    rw [List.append_nil] at hchain
    exact ⟨used, rfl, hchain⟩
  by_cases h10 : k = 10
  · subst h10
    obtain ⟨used, rfl, hused⟩ := ih n (by omega) _ _ _ _ rfl (read_chain_ten h) hx
    exact ⟨used, rfl, .factor hused⟩
  · obtain ⟨left, r, hleft, h⟩ := read_chain h2 h10 h
    obtain ⟨more, rfl, hmore⟩ := ih n (by omega) (.chainFrom k left) _ _ _
      (decide_eq_true (by omega)) h hx
    obtain ⟨used, rfl, hused⟩ := ih n (by omega) (.chain (k + 1)) _ _ _
      (decide_eq_true (by omega)) hleft (plain_of_chainFrom h hx)
    exact ⟨used ++ more, (List.append_assoc _ _ _).symm, .chain (by omega) hused hmore⟩

theorem derives_of_chainFrom (ih : ∀ m < n + 1, ReadsGrammar m) {k : ℕ} {left : Node}
    (hk : k < 10) (h : read (n + 1) (.chainFrom k left) ts = some (x, rest)) (hx : x.Plain) :
    ∃ used, ts = used ++ rest ∧ Derives (.chainFrom k left) used x := by
  rcases read_chainFrom h with ⟨-, rfl, rfl⟩ | ⟨join, r, right, r', hjoin, hright, h⟩
  · exact ⟨[], rfl, .chainEnd⟩
  · obtain ⟨s, o, rfl, hs, ho, rfl, -, hplain⟩ := joinAt?_plain hjoin (plain_of_chainFrom h hx)
    obtain ⟨more, rfl, hmore⟩ := ih n (by omega) (.chainFrom k _) _ _ _ (decide_eq_true hk) h hx
    obtain ⟨used, rfl, hused⟩ := ih n (by omega) (.chain (k + 1)) _ _ _
      (decide_eq_true (by omega)) hright hplain
    exact ⟨.sign s :: (used ++ more), by simp, .join hs ho hused hmore⟩

theorem derives_of_factor (ih : ∀ m < n + 1, ReadsGrammar m)
    (h : read (n + 1) .factor ts = some (x, rest)) (hx : x.Plain) :
    ∃ used, ts = used ++ rest ∧ Derives .factor used x := by
  rcases read_factor h hx with ⟨s, o, r, y, rfl, ho, hy, rfl⟩ | ⟨-, h⟩
  · rw [plain_unary] at hx
    obtain ⟨used, rfl, hused⟩ := ih n (by omega) _ _ _ _ rfl hy hx.2
    exact ⟨.sign s :: used, rfl, .signed ho hused⟩
  · obtain ⟨used, rfl, hused⟩ := ih n (by omega) _ _ _ _ rfl h hx
    exact ⟨used, rfl, .unsigned hused⟩

theorem derives_of_power (ih : ∀ m < n + 1, ReadsGrammar m)
    (h : read (n + 1) .power ts = some (x, rest)) (hx : x.Plain) :
    ∃ used, ts = used ++ rest ∧ Derives .power used x := by
  obtain ⟨-, b, r, hbase, ⟨-, rfl, rfl⟩ | ⟨r', e, rfl, he, rfl⟩⟩ := read_power h hx
  · obtain ⟨used, rfl, hused⟩ := ih n (by omega) _ _ _ _ rfl hbase hx
    exact ⟨used, rfl, .base hused⟩
  · rw [plain_binary] at hx
    obtain ⟨used, rfl, hused⟩ := ih n (by omega) _ _ _ _ rfl hbase hx.1
    obtain ⟨more, rfl, hmore⟩ := ih n (by omega) _ _ _ _ rfl he hx.2.2
    exact ⟨used ++ .sign .power :: more, by simp, .raised hused hmore⟩

theorem derivesArguments_of_read (ih : ∀ m < n + 1, ReadsGrammar m) {begun : Bool} {k : ℕ}
    {xs : List Node} (h : readArguments (read n) begun false false k ts = some (xs, false, rest))
    (hx : AllPlain xs) :
    ∃ used, ts = used ++ .sign .closeRound :: rest ∧ DerivesArguments used xs := by
  induction k generalizing begun ts xs with
  | zero => cases h
  | succ k ihk =>
    rcases readArguments_plain h hx with ⟨rfl, rfl⟩ | ⟨y, r, -, -, hy, -, hr⟩
    · exact ⟨[], rfl, .nil⟩
    · have hyplain : y.Plain := by
        rcases hr with ⟨-, rfl⟩ | ⟨r', ys, -, -, rfl⟩
        · exact hx.1
        · exact hx.1
      obtain ⟨m, hm, hchain⟩ := exists_chain_of_named hy hyplain
      obtain ⟨used, rfl, hused⟩ := ih m (by omega) _ _ _ _ rfl hchain hyplain
      rcases hr with ⟨rfl, rfl⟩ | ⟨r', ys, rfl, hys, rfl⟩
      · exact ⟨used, rfl, .last hused⟩
      · obtain ⟨more, rfl, hmore⟩ := ihk hys hx.2
        exact ⟨used ++ .sign .comma :: more, by simp, .cons hused hmore⟩

theorem derives_of_primaryFrom (ih : ∀ m < n + 1, ReadsGrammar m) {left : Node}
    (h : read (n + 1) (.primaryFrom left) ts = some (x, rest)) (hx : x.Plain) :
    ∃ used, ts = used ++ rest ∧ Derives (.primaryFrom left) used x := by
  rcases read_primaryFrom h hx with ⟨-, rfl, rfl⟩ | ⟨r, xs, r', rfl, hxs, hargs, h⟩
  · exact ⟨[], rfl, .primaryEnd⟩
  · obtain ⟨more, rfl, hmore⟩ := ih n (by omega) _ _ _ _ rfl h hx
    obtain ⟨used, rfl, hused⟩ := derivesArguments_of_read ih hargs hxs
    exact ⟨.sign .openRound :: (used ++ .sign .closeRound :: more), by simp, .call hused hmore⟩

theorem derives_of_primary (ih : ∀ m < n + 1, ReadsGrammar m)
    (h : read (n + 1) .primary ts = some (x, rest)) (hx : x.Plain) :
    ∃ used, ts = used ++ rest ∧ Derives .primary used x := by
  obtain ⟨y, r, hatom, h⟩ := read_primary h
  have hy := plain_of_primaryFrom h hx
  obtain ⟨more, rfl, hmore⟩ := ih n (by omega) _ _ _ _ rfl h hx
  obtain ⟨m, rfl⟩ := read_pos hatom
  rcases read_atom hatom hy with ⟨id, rfl, hid, rfl⟩ | ⟨k, rfl, rfl⟩ | ⟨d, rfl, rfl⟩ |
    ⟨r', rfl, -, hitem⟩
  · exact ⟨.name id :: more, rfl, .word (.name hid) hmore⟩
  · exact ⟨.whole k :: more, rfl, .word .whole hmore⟩
  · exact ⟨.decimal d :: more, rfl, .word .decimal hmore⟩
  · obtain ⟨m', hm, hchain⟩ := exists_chain_of_item hitem hy
    obtain ⟨used, rfl, hused⟩ := ih m' (by omega) _ _ _ _ rfl hchain hy
    exact ⟨.sign .openRound :: (used ++ .sign .closeRound :: more), by simp,
      .bracket hused hmore⟩

/-- What is read as arithmetic is derived, at every depth. -/
theorem readsGrammar (n : ℕ) : ReadsGrammar n := by
  induction n using Nat.strongRecOn with
  | ind n ih =>
    intro g ts x rest hg h hx
    obtain ⟨n, rfl⟩ := read_pos h
    cases g with
    | chain k => exact derives_of_chain ih (of_decide_eq_true hg) h hx
    | chainFrom k left => exact derives_of_chainFrom ih (of_decide_eq_true hg) h hx
    | factor => exact derives_of_factor ih h hx
    | power => exact derives_of_power ih h hx
    | primary => exact derives_of_primary ih h hx
    | primaryFrom left => exact derives_of_primaryFrom ih h hx
    | atom => cases hg
    | named => cases hg
    | item => cases hg
    | expression => cases hg
    | target => cases hg
    | slice => cases hg
    | lambda => cases hg
    | loops => cases hg
    | entry => cases hg

end

/-! ## The words of derivations -/

section

variable {g : Goal} {ts : List Token} {x : Node} {xs : List Node}

/-- The words that a goal may begin with. -/
def Goal.opensWith : Goal → List Token → Bool
  | .power | .primary => opensOperand
  | .chainFrom _ _ | .primaryFrom _ => fun _ => true
  | _ => opensExpression

theorem opensOperand_append {ts : List Token} (h : opensOperand ts = true) (suffix : List Token) :
    opensOperand (ts ++ suffix) = true := by
  cases ts with
  | nil => cases h
  | cons t ts =>
    cases t with
    | sign s =>
      cases s with
      | openRound => rfl
      | _ => cases h
    | _ => exact h

theorem Derives.opens : ∀ {g : Goal} {ts : List Token} {x : Node}, Derives g ts x →
    g.opensWith ts = true
  | _, _, _, .chain _ h _ => opensExpression_append h.opens _
  | _, _, _, .factor h => h.opens
  | _, _, _, .chainEnd => rfl
  | _, _, _, .join _ _ _ _ => rfl
  | _, _, _, @Derives.signed s _ _ _ ho _ => by
    cases s <;> cases ho <;> rfl
  | _, _, _, .unsigned h => opensExpression_of_opensOperand h.opens
  | _, _, _, .base h => h.opens
  | _, _, _, .raised h _ => opensOperand_append h.opens _
  | _, _, _, .word ht _ => by
    cases ht with
    | name hid => exact congrArg (!·) hid
    | whole => rfl
    | decimal => rfl
  | _, _, _, .bracket _ _ => rfl
  | _, _, _, .primaryEnd => rfl
  | _, _, _, .call _ _ => rfl

theorem AtomWord.balanced {t : Token} (h : AtomWord t x) : Balanced [t] := by
  cases h <;> exact balanced_singleton rfl (by simp) (by simp)

/-- The signs of arithmetic that join operands or stand before one. -/
theorem balanced_operator {s : Sign} {o : Operator}
    (ho : operatorNode s = some (.leaf (.operator o)) ∨
      unaryNode s = some (.leaf (.operator o))) : Balanced [.sign s] := by
  rcases ho with ho | ho
  all_goals
    refine balanced_singleton ?_ ?_ ?_
    all_goals cases s <;> cases ho <;> decide

mutual

theorem Derives.balanced : ∀ {g : Goal} {ts : List Token} {x : Node}, Derives g ts x → Balanced ts
  | _, _, _, .chain _ h h' => h.balanced.append h'.balanced
  | _, _, _, .factor h => h.balanced
  | _, _, _, .chainEnd => balanced_nil
  | _, _, _, .join _ ho h h' => (balanced_operator (.inl ho)).append (h.balanced.append h'.balanced)
  | _, _, _, .signed ho h => (balanced_operator (.inr ho)).append h.balanced
  | _, _, _, .unsigned h => h.balanced
  | _, _, _, .base h => h.balanced
  | _, _, _, .raised h h' => h.balanced.append (h'.balanced.cons rfl (by simp) (by simp))
  | _, _, _, .word ht h => ht.balanced.append h.balanced
  | _, _, _, .bracket h h' => by
    have hbracket := h.balanced.brackets.append h'.balanced
    rwa [List.append_assoc, List.cons_append] at hbracket
  | _, _, _, .primaryEnd => balanced_nil
  | _, _, _, .call h h' => by
    have hcall := h.balanced.brackets.append h'.balanced
    rwa [List.append_assoc, List.cons_append] at hcall

theorem DerivesArguments.balanced : ∀ {ts : List Token} {xs : List Node},
    DerivesArguments ts xs → Balanced ts
  | _, _, .nil => balanced_nil
  | _, _, .last h => h.balanced
  | _, _, .cons h h' => h.balanced.append (h'.balanced.cons rfl (by simp) (by simp))

end

theorem AtomWord.plain {t : Token} (h : AtomWord t x) : x.Plain := by
  cases h <;> exact ⟨trivial, trivial⟩

/-- What stands to the left of a goal is plain. -/
def Goal.LeftPlain : Goal → Prop
  | .chainFrom _ l | .primaryFrom l => l.Plain
  | _ => True

mutual

theorem Derives.plain : ∀ {g : Goal} {ts : List Token} {x : Node}, Derives g ts x →
    g.LeftPlain → x.Plain
  | _, _, _, .chain _ h h', _ => h'.plain (h.plain trivial)
  | _, _, _, .factor h, _ => h.plain trivial
  | _, _, _, .chainEnd, hl => hl
  | _, _, _, .join _ _ h h', hl =>
    h'.plain ((plain_binary _ _ _).mpr ⟨hl, ⟨trivial, trivial⟩, h.plain trivial⟩)
  | _, _, _, .signed _ h, _ => (plain_unary _ _).mpr ⟨⟨trivial, trivial⟩, h.plain trivial⟩
  | _, _, _, .unsigned h, _ => h.plain trivial
  | _, _, _, .base h, _ => h.plain trivial
  | _, _, _, .raised h h', _ =>
    (plain_binary _ _ _).mpr ⟨h.plain trivial, ⟨trivial, trivial⟩, h'.plain trivial⟩
  | _, _, _, .word ht h, _ => h.plain ht.plain
  | _, _, _, .bracket h h', _ => h'.plain (h.plain trivial)
  | _, _, _, .primaryEnd, hl => hl
  | _, _, _, .call h h', hl => h'.plain ((plain_call _ _ _).mpr ⟨rfl, hl, h.plain⟩)

theorem DerivesArguments.plain : ∀ {ts : List Token} {xs : List Node},
    DerivesArguments ts xs → AllPlain xs
  | _, _, .nil => trivial
  | _, _, .last h => ⟨h.plain trivial, trivial⟩
  | _, _, .cons h h' => ⟨h.plain trivial, h'.plain⟩

end

end

/-! ## What is derived is read -/

/-- The strength with which a sign joins operands, more than any other for a sign that joins
none. -/
def Sign.strength : Sign → ℕ
  | .bar => 4
  | .caret => 5
  | .ampersand => 6
  | .shiftLeft | .shiftRight => 7
  | .plus | .minus => 8
  | .star | .slash | .doubleSlash | .percent | .at => 9
  | _ => 10

/-- A chain of some strength ends before this: an expression ends here, or a sign that joins less
strongly follows. -/
def endsChain (k : ℕ) : List Token → Bool
  | .sign s :: _ => s == .closeRound || s == .comma || decide (s.strength < k)
  | ts => ts.isEmpty

/-- The rule of a goal stops before these words. -/
def Goal.stopsBefore : Goal → List Token → Bool
  | .chain k | .chainFrom k _ => endsChain k
  | .primary | .primaryFrom _ => endsOperand
  | _ => endsChain 10

/-- How deep the rule of a goal is nested at most, but for the words that it uses. -/
def Goal.rank : Goal → ℕ
  | .chain k => 5 + (10 - k)
  | .factor => 4
  | .power => 3
  | .primary => 2
  | _ => 1

section

variable {m k : ℕ} {ts us suffix r : List Token} {x : Node}

theorem strength_of_joins {s : Sign} (hs : (joiningSigns k).contains s = true) :
    s.strength = k ∧ 4 ≤ k := by
  have hall : ∀ j < 10, ∀ s ∈ joiningSigns j, s.strength = j ∧ 4 ≤ j := by decide
  by_cases hk : k < 10
  · exact hall k hk s (List.contains_iff_mem.mp hs)
  · unfold joiningSigns at hs
    split at hs
    case h_7 => cases hs
    all_goals omega

theorem endsChain_cases (h : endsChain k suffix = true) :
    endsExpression suffix = true ∨ ∃ s r, suffix = .sign s :: r ∧ s.strength < k := by
  unfold endsChain at h
  split at h
  · rename_i s r
    simp only [Bool.or_eq_true, beq_iff_eq, decide_eq_true_eq] at h
    rcases h with (rfl | rfl) | h
    · exact .inl rfl
    · exact .inl rfl
    · exact .inr ⟨s, r, rfl, h⟩
  · rw [List.isEmpty_iff] at h
    exact .inl (by rw [h]; rfl)

theorem endsChain_of_endsExpression (h : endsExpression suffix = true) :
    endsChain k suffix = true := by
  rcases endsExpression_cases h with rfl | ⟨r, rfl⟩ | ⟨r, rfl⟩
  · rfl
  · rfl
  · rfl

theorem endsChain_sign {s : Sign} (hs : s.strength < k) : endsChain k (.sign s :: r) = true := by
  show (s == .closeRound || s == .comma || decide (s.strength < k)) = true
  rw [decide_eq_true hs, Bool.or_true]

theorem endsChain_mono {j : ℕ} (hkj : k ≤ j) (h : endsChain k suffix = true) :
    endsChain j suffix = true := by
  rcases endsChain_cases h with h | ⟨s, r, rfl, hs⟩
  · exact endsChain_of_endsExpression h
  · exact endsChain_sign (by omega)

theorem endsOperand_of_endsChain (hk : k ≤ 10) (h : endsChain k suffix = true) :
    endsOperand suffix = true := by
  rcases endsChain_cases h with h | ⟨s, r, rfl, hs⟩
  · exact endsOperand_of_endsExpression h
  · have hsigns : ∀ s ∈ [Sign.dot, .openRound, .openSquare], s.strength = 10 := by decide
    unfold endsOperand
    rw [Bool.not_eq_true', ← Bool.not_eq_true, List.contains_iff_mem]
    intro hmem
    rw [hsigns s hmem] at hs
    omega

/-- No sign that joins with the strength of a chain stands where the chain ends. -/
theorem joinAt?_of_endsChain (h : endsChain k suffix = true) :
    joinAt? k suffix = none := by
  rcases endsChain_cases h with h | ⟨s, r, rfl, hs⟩
  · exact joinAt?_of_endsExpression h k
  · have hstrong : ∀ s : Sign, 4 ≤ s.strength := by
      intro s
      cases s <;> decide
    have hmin := hstrong s
    have hno : ¬ (joiningSigns k).contains s = true := by
      intro hjoins
      have hstrength := (strength_of_joins hjoins).1
      omega
    unfold joinAt?
    rw [if_neg (by omega), if_neg (by omega), if_neg (by omega)]
    exact if_neg hno

theorem afterSign?_power_of_endsChain (h : endsChain 10 suffix = true) :
    afterSign? .power suffix = none := by
  rcases endsChain_cases h with h | ⟨s, r, rfl, hs⟩
  · exact afterSign?_of_endsExpression h (by decide) (by decide)
  · refine if_neg ?_
    rintro rfl
    exact absurd hs (by decide)

/-- The rest of a chain ends the operand before it. -/
theorem Derives.endsChain {l : Node} (h : Derives (.chainFrom k l) us x)
    (hend : endsChain k suffix = true) : endsChain (k + 1) (us ++ suffix) = true := by
  cases h with
  | chainEnd => exact endsChain_mono (Nat.le_succ k) hend
  | join hs _ _ _ => exact endsChain_sign (Nat.lt_succ_of_le (Nat.le_of_eq (strength_of_joins hs).1))

/-! ## One rule each -/

theorem read_expression_of_derives (h : Derives (.chain 0) ts x)
    (hread : read m (.chain 0) (ts ++ suffix) = some (x, suffix))
    (hend : endsExpression suffix = true) :
    read (m + 1) .expression (ts ++ suffix) = some (x, suffix) := by
  have hopens := opensExpression_append h.opens suffix
  have hif : afterWord? "if" suffix = none := by
    rcases endsExpression_cases hend with rfl | ⟨r, rfl⟩ | ⟨r, rfl⟩
    · rfl
    · rfl
    · rfl
  exact read_expression_of (afterWord?_of_opens hopens (by decide)) hread hif

theorem read_named_of_derives (h : Derives (.chain 0) ts x)
    (hread : read m (.chain 0) (ts ++ suffix) = some (x, suffix))
    (hend : endsExpression suffix = true) :
    read (m + 2) .named (ts ++ suffix) = some (x, suffix) :=
  read_named_of (startsDefinition_append (startsDefinition_of_plain h.balanced.plain) fun _ => hend)
    (read_expression_of_derives h hread hend)

/-- The words of an argument and the sign after it are read as an argument. -/
theorem readArguments_of_named {begun : Bool} {c : Sign} (hc : c = .closeRound ∨ c = .comma)
    (h : Derives (.chain 0) ts x)
    (hread : read m .named (ts ++ .sign c :: r) = some (x, .sign c :: r)) :
    readArguments (read m) begun false false (k + 1) (ts ++ .sign c :: r) =
      argumentsAfter (read m) k false false (some x) (.sign c :: r) := by
  have hopens : opensExpression ts = true := h.opens
  have hplain : ∀ t ∈ ts ++ [.sign c], t.isPlain = true := by
    intro t ht
    rcases List.mem_append.mp ht with ht | ht
    · exact h.balanced.plain t ht
    · rw [List.mem_singleton] at ht
      rcases hc with rfl | rfl
      · rw [ht]
        rfl
      · rw [ht]
        rfl
  have hlength : 2 ≤ (ts ++ [Token.sign c]).length := by
    cases ts with
    | nil => cases hopens
    | cons t ts => simp
  have hpos : startsPositional (ts ++ [.sign c] ++ r) = true :=
    startsPositional_append (startsPositional_of_opens (opensExpression_append hopens _) hplain)
      hlength
  rw [List.append_assoc, List.singleton_append] at hpos
  refine readArguments_positional ?_ hpos hread (.inr ?_)
  · exact afterSign?_of_opens (opensExpression_append hopens _) (by decide)
  · rfl

theorem AtomWord.read {t : Token} (h : AtomWord t x) (m : ℕ) (suffix : List Token) :
    QuantumGates.read (m + 1) .atom (t :: suffix) = some (x, suffix) := by
  cases h with
  | name hid => exact readAtom_name hid
  | whole => rfl
  | decimal => rfl

/-! ## All rules -/

theorem Goal.rank_pos (g : Goal) : 0 < g.rank := by
  unfold rank
  split
  all_goals omega

mutual

/-- What is derived is read wherever the rule may stop. -/
theorem Derives.read : ∀ {g : Goal} {ts : List Token} {x : Node}, Derives g ts x → g.LeftPlain →
    ∀ {m : ℕ} {suffix : List Token}, 24 * ts.length + g.rank ≤ m → g.stopsBefore suffix = true →
      QuantumGates.read m g (ts ++ suffix) = some (x, suffix)
  | _, _, _, @Derives.chain k ts us l x hk h h', _, m + 1, suffix, hm, hend => by
    simp only [List.length_append, Goal.rank] at hm
    have hleft := h.read trivial (m := m) (by simp only [Goal.rank]; omega) (h'.endsChain hend)
    have hright := h'.read (h.plain trivial) (m := m) (by simp only [Goal.rank]; omega) hend
    rw [List.append_assoc]
    by_cases h2 : k = 2
    · subst h2
      -- no sign joins with this strength, so the chain is a single operand
      cases h' with
      | chainEnd => exact read_chain_two_of (afterWord?_of_opens
          (opensExpression_append h.opens _) (by decide)) hleft
      | join hs _ _ _ => cases hs
    · exact read_chain_of h2 (by omega) hleft hright
  | _, _, _, .factor h, _, m + 1, suffix, hm, hend => by
    simp only [Goal.rank] at hm
    exact read_chain_ten_of (h.read trivial (by simp only [Goal.rank]; omega) hend)
  | _, _, _, .chainEnd, _, m + 1, suffix, hm, hend =>
    read_chainFrom_of_none (joinAt?_of_endsChain hend)
  | _, _, _, @Derives.join k s o ts us l r x hs ho h h', hl, m + 1, suffix, hm, hend => by
    simp only [List.length_cons, List.length_append, Goal.rank] at hm
    obtain ⟨h0, h1, h3⟩ := strength_of_joiningSigns hs
    have hright := h.read trivial (m := m) (by simp only [Goal.rank]; omega) (h'.endsChain hend)
    have hjoined : (Node.mk .binary [l, .leaf (.operator o), r]).Plain :=
      (plain_binary _ _ _).mpr ⟨hl, ⟨trivial, trivial⟩, h.plain trivial⟩
    have hrest := h'.read hjoined (m := m) (by simp only [Goal.rank]; omega) hend
    rw [List.cons_append, List.append_assoc]
    exact read_chainFrom_of_join (joinAt?_sign h0 h1 h3 hs ho _) hright hrest
  | _, _, _, .signed ho h, _, m + 1, suffix, hm, hend => by
    simp only [List.length_cons, Goal.rank] at hm
    exact read_factor_of_sign ho (h.read trivial (by simp only [Goal.rank]; omega) hend)
  | _, _, _, .unsigned h, _, m + 1, suffix, hm, hend => by
    simp only [Goal.rank] at hm
    exact read_factor_of_none (fun _ _ heq => unaryNode_of_opensOperand h.opens heq)
      (h.read trivial (by simp only [Goal.rank]; omega) hend)
  | _, _, _, .base h, _, m + 1, suffix, hm, hend => by
    simp only [Goal.rank] at hm
    have hopens := opensExpression_append (opensExpression_of_opensOperand h.opens) suffix
    exact read_power_of_none (afterWord?_of_opens hopens (by decide))
      (h.read trivial (by simp only [Goal.rank]; omega)
        (endsOperand_of_endsChain (Nat.le_refl 10) hend)) (afterSign?_power_of_endsChain hend)
  | _, _, _, @Derives.raised ts us b e h h', _, m + 1, suffix, hm, hend => by
    simp only [List.length_append, List.length_cons, Goal.rank] at hm
    have hopens := opensExpression_append (opensExpression_of_opensOperand h.opens)
      (.sign .power :: us ++ suffix)
    have hbase : QuantumGates.read m .primary (ts ++ (.sign .power :: us ++ suffix)) =
        some (b, .sign .power :: us ++ suffix) :=
      h.read trivial (by simp only [Goal.rank]; omega) rfl
    rw [List.append_assoc]
    exact read_power_of_power (afterWord?_of_opens hopens (by decide)) hbase
      (h'.read trivial (by simp only [Goal.rank]; omega) hend)
  | _, _, _, .word ht h, _, m + 1, suffix, hm, hend => by
    simp only [List.length_cons, Goal.rank] at hm
    have hrest := h.read ht.plain (m := m) (by simp only [Goal.rank]; omega) hend
    obtain ⟨m, rfl⟩ : ∃ k, m = k + 1 := ⟨m - 1, by omega⟩
    exact read_primary_of (ht.read m _) hrest
  | _, _, _, @Derives.bracket ts us y x h h', _, m + 1, suffix, hm, hend => by
    simp only [List.length_append, List.length_cons, Goal.rank] at hm
    have hrest := h'.read (h.plain trivial) (m := m) (by simp only [Goal.rank]; omega) hend
    obtain ⟨m, rfl⟩ : ∃ k, m = k + 4 := ⟨m - 4, by omega⟩
    have hchain : QuantumGates.read m (.chain 0) (ts ++ .sign .closeRound :: (us ++ suffix)) =
        some (y, .sign .closeRound :: (us ++ suffix)) :=
      h.read trivial (by simp only [Goal.rank]; omega) rfl
    have hnamed := read_named_of_derives h hchain rfl
    have hopens := opensExpression_append h.opens (.sign .closeRound :: (us ++ suffix))
    rw [List.cons_append, List.append_assoc, List.cons_append]
    exact read_primary_of (readRound_of_item (startsItem_of_opens hopens) (h.plain trivial)
      (read_item_of (afterSign?_of_opens hopens (by decide)) hnamed)) hrest
  | _, _, _, .primaryEnd, _, m + 1, suffix, hm, hend =>
    readPrimaryFrom_of_ends (endsPrimary_of_endsOperand hend)
  | _, _, _, @Derives.call ts us y x xs h h', hl, m + 1, suffix, hm, hend => by
    simp only [List.length_append, List.length_cons, Goal.rank] at hm
    have hcalled := (plain_call _ _ _).mpr ⟨rfl, hl, h.plain⟩
    have hrest := h'.read hcalled (m := m) (by simp only [Goal.rank]; omega) hend
    rw [List.cons_append, List.append_assoc, List.cons_append]
    refine read_primaryFrom_of_call (h.read (by omega) ?_) hrest
    rw [List.length_append]
    omega
  | g, _, _, _, _, 0, suffix, hm, hend => by
    have hpos := g.rank_pos
    omega

theorem DerivesArguments.read : ∀ {ts : List Token} {xs : List Node}, DerivesArguments ts xs →
    ∀ {m k : ℕ} {begun : Bool} {rest : List Token}, 24 * ts.length + 17 ≤ m → ts.length < k →
      readArguments (QuantumGates.read m) begun false false k (ts ++ .sign .closeRound :: rest) =
        some (xs, false, rest)
  | _, _, .nil, m, k + 1, begun, rest, hm, hk => readArguments_close rest
  | _, _, @DerivesArguments.last ts x h, m, k + 1, begun, rest, hm, hk => by
    obtain ⟨m, rfl⟩ : ∃ k, m = k + 2 := ⟨m - 2, by omega⟩
    have hchain : QuantumGates.read m (.chain 0) (ts ++ .sign .closeRound :: rest) =
        some (x, .sign .closeRound :: rest) :=
      h.read trivial (by simp only [Goal.rank]; omega) rfl
    rw [readArguments_of_named (.inl rfl) h (read_named_of_derives h hchain rfl)]
    exact argumentsAfter_close _ rest
  | _, _, @DerivesArguments.cons ts us x xs h h', m, k + 1, begun, rest, hm, hk => by
    simp only [List.length_append, List.length_cons] at hm hk
    have hrest : readArguments (QuantumGates.read m) true false false k
        (us ++ .sign .closeRound :: rest) = some (xs, false, rest) :=
      h'.read (by omega) (by omega)
    obtain ⟨m, rfl⟩ : ∃ k, m = k + 2 := ⟨m - 2, by omega⟩
    have hchain : QuantumGates.read m (.chain 0)
        (ts ++ .sign .comma :: (us ++ .sign .closeRound :: rest)) =
          some (x, .sign .comma :: (us ++ .sign .closeRound :: rest)) :=
      h.read trivial (by simp only [Goal.rank]; omega) rfl
    rw [List.append_assoc, List.cons_append,
      readArguments_of_named (.inr rfl) h (read_named_of_derives h hchain rfl)]
    exact argumentsAfter_comma hrest

end

theorem Derives.expresses (h : Derives (.chain 0) ts x) : Expresses ts x := by
  refine ⟨h.opens, h.balanced, fun m suffix hm hend => ?_⟩
  obtain ⟨m, rfl⟩ : ∃ k, m = k + 1 := ⟨m - 1, by omega⟩
  exact read_expression_of_derives h
    (h.read trivial (by simp only [Goal.rank]; omega) (endsChain_of_endsExpression hend)) hend

theorem Expresses.derives (h : Expresses ts x) (hx : x.Plain) : Derives (.chain 0) ts x := by
  have hread := h.reads (24 * (ts.length + 2)) [] (Nat.le_refl _) rfl
  obtain ⟨m, hm⟩ := read_pos hread
  rw [hm, List.append_nil] at hread
  obtain ⟨used, hused, hderives⟩ := readsGrammar m _ _ _ _ rfl (read_expression hread hx).2.1 hx
  rw [List.append_nil] at hused
  rwa [hused]

/-- The reader reads the grammar: words have a plain tree exactly if the tree is derived from
them. -/
theorem readAll?_eq_some_iff : readAll? ts = some x ∧ x.Plain ↔ Derives (.chain 0) ts x := by
  constructor
  · rintro ⟨h, hx⟩
    exact (expresses_of_readAll? h hx).derives hx
  · intro h
    exact ⟨h.expresses.readAll?, h.plain trivial⟩

end

end QuantumGates
