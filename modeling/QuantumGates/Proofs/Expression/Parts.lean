-- Texts put into longer texts. An operand between two signs, the operand of a minus and the
-- arguments of a call are parts of the text that holds them: where the longer text is an expression,
-- each of them is one by itself, provided that it keeps together.
import QuantumGates.Proofs.Expression.PairedTexts

namespace QuantumGates

open Node

/-- Wherever the text `u` is an expression, its part `s` is one. -/
def Encloses (u s : List Char) : Prop :=
  ∀ ts, Lexes u ts → ∃ us, Lexes s us ∧ us <:+: ts ∧ PartOf us ts ∧
    PartOf (us.map Token.caretAsPower) (ts.map Token.caretAsPower)

/-! ## Reading a part -/

section

variable {text s : String} {bound : Option ℕ} {f : Formula}

theorem isValue_of_part {us ts : List Token} {x : Node} (h : PartOf us ts)
    (hx : Derives (.chain 0) ts x) (hvalue : x.IsValue) :
    ∃ y, Derives (.chain 0) us y ∧ y.IsValue := by
  obtain ⟨f, hf⟩ := hvalue
  rcases h _ _ x isValue_comesDown hx ⟨_, hf⟩ with hy | ⟨-, g, hcall⟩
  · exact hy
  · exact absurd rfl (isValue_of_call hcall).2.1

/-- A part of an expression is written as an expression. -/
theorem Encloses.written (h : Encloses text.toList s.toList) (hs : IsPlainText s.toList)
    (htext : IsPlainExpression text) :
    ∃ ts us y, Lexes text.toList ts ∧ Lexes s.toList us ∧ us <:+: ts ∧ Expresses us y ∧
      ∃ x, Written Expresses s.toList x := by
  obtain ⟨ts, c, x, f, -, hwords, hc, haccepted, hx, hf, -⟩ := htext.words
  obtain ⟨us, hus, hinside, hpart, hpart'⟩ := h ts hwords
  obtain ⟨y, hy, g, hg⟩ := isValue_of_part hpart' (hx.derives (plain_of_meaning? hf)) ⟨f, hf⟩
  -- the words are there, since the tree with carets for powers is made of them
  have hne : us ≠ [] := by
    rintro rfl
    exact ne_nil_of_opens rfl hy.opens rfl
  rcases hpart _ _ c accepted_comesDown (hc.derives haccepted.plain) haccepted with
    ⟨d, hd, hd'⟩ | ⟨hnil, -⟩
  · exact ⟨ts, us, d, hwords, hus, hinside, hd.expresses, y, hs, us, d, g, hus, hd.expresses, hd',
      hy.expresses, hg⟩
  · exact absurd hnil hne

theorem Balanced.deepest_le_of_inside {us ts : List Token} (h : Balanced us) (hinside : us <:+: ts) :
    deepest 0 us ≤ deepest 0 ts := by
  obtain ⟨a, b, rfl⟩ := hinside
  have hshift := (h.depthAfterWords (QuantumGates.depthAfterWords 0 a)).2
  rw [QuantumGates.deepest_append, QuantumGates.deepest_append]
  omega

/-- A part of a text that is read as a formula is read as one within the same limit. -/
theorem Encloses.readWithin (h : Encloses text.toList s.toList) (hs : IsPlainText s.toList)
    (htext : IsPlainText text.toList) (hread : Formula.readWithin bound text = .ok f) :
    ∃ g, Formula.readWithin bound s = .ok g := by
  obtain ⟨ts, us, y, hwords, hus, hinside, hy, x, hwritten⟩ :=
    h.written hs ⟨htext, f, Formula.readWithin_unlimited hread⟩
  obtain ⟨-, g, hg⟩ := hwritten.isPlainExpression.1
  have hle : nestingOf s ≤ nestingOf text := by
    unfold nestingOf
    rw [hus.tokensWithin? hs, hwords.tokensWithin? htext]
    exact hy.balanced.deepest_le_of_inside hinside
  exact ⟨g, Formula.readWithin_of_nesting hg
    (exceeds_of_le hle (Formula.nesting_of_readWithin hread))⟩

end

/-! ## Words of texts that are put together -/

section

variable {s u : List Char} {ts : List Token}

theorem Lexes.of_word {rest : List Char} {t : Token} (h : Lexes s ts)
    (hword : takeToken? s = some (t, rest)) : ∃ us, ts = t :: us ∧ Lexes rest us := by
  cases h with
  | nil => cases hword
  | blank => cases hword
  | word hword' _ hrest =>
    cases hword.symm.trans hword'
    exact ⟨_, rfl, hrest⟩

/-- The words of a text before and after a sign that separates. -/
theorem Lexes.of_separator {c : Char} {g : Sign} (h : Lexes (s ++ c :: u) ts)
    (hc : isSeparator c = true) (hword : takeToken? (c :: u) = some (.sign g, u)) :
    ∃ us vs, ts = us ++ .sign g :: vs ∧ Lexes s us ∧ Lexes u vs := by
  obtain ⟨us, vs, rfl, hus, hvs⟩ := h.split hc
  obtain ⟨more, rfl, hmore⟩ := hvs.of_word hword
  exact ⟨us, more, rfl, hus, hmore⟩

theorem Lexes.of_brackets (h : Lexes ('(' :: s ++ [')']) ts) :
    ∃ us, ts = .sign .openRound :: (us ++ [.sign .closeRound]) ∧ Lexes s us := by
  obtain ⟨vs, rfl, hvs⟩ := h.of_word rfl
  obtain ⟨us, vs, rfl, hus, hvs⟩ := hvs.of_separator rfl rfl
  rw [hvs.eq_nil]
  exact ⟨us, rfl, hus⟩

theorem Lexes.of_join {sign : String} {g : Sign} {o : Operator} (hsign : Joins sign g o)
    (h : Lexes (s ++ ' ' :: (sign.toList ++ ' ' :: u)) ts) :
    ∃ us vs, ts = us ++ .sign g :: vs ∧ Lexes s us ∧ Lexes u vs := by
  obtain ⟨us, vs, rfl, hus, hvs⟩ := h.split rfl
  obtain ⟨more, rfl, hmore⟩ := (hvs.of_blanks 1).of_word (hsign.word u)
  exact ⟨us, more, rfl, hus, hmore.of_blanks 1⟩

theorem Lexes.of_minus (h : Lexes ('-' :: s) ts) :
    ∃ us, ts = .sign .minus :: us ∧ Lexes s us := by
  cases s with
  | nil => exact h.of_word rfl
  | cons c r =>
    have hsign : takeToken? ('-' :: c :: r) =
        (takeSymbol? ('-' :: c :: r)).map fun x => (.sign x.1, x.2) := rfl
    by_cases hc : c = '>' ∨ c = '='
    · -- an arrow or an assignment is no word of arithmetic
      obtain ⟨t, rest, us, hword, hplain, -⟩ := h.exists_word (by decide)
      rcases hc with rfl | rfl
      · cases hword
        cases hplain
      · cases hword
        cases hplain
    · refine h.of_word ?_
      rw [hsign, takeSymbol?_minus hc]
      rfl

theorem Lexes.of_call {name : String} {f : Fn} {count : ℕ} (hname : Calls name f count)
    (h : Lexes (name.toList ++ '(' :: (s ++ [')'])) ts) :
    ∃ us, ts = .name name :: .sign .openRound :: (us ++ [.sign .closeRound]) ∧ Lexes s us := by
  obtain ⟨vs, rfl, hvs⟩ := h.of_word (hname.word _)
  obtain ⟨us, rfl, hus⟩ := hvs.of_brackets
  exact ⟨us, rfl, hus⟩

theorem Lexes.of_comma (h : Lexes (s ++ ',' :: ' ' :: u) ts) :
    ∃ us vs, ts = us ++ .sign .comma :: vs ∧ Lexes s us ∧ Lexes u vs := by
  obtain ⟨us, vs, rfl, hus, hvs⟩ := h.of_separator rfl rfl
  exact ⟨us, vs, rfl, hus, hvs.of_blanks 1⟩

end

/-! ## Operands -/

/-- Whether a sign is a round bracket. -/
def Sign.isRound : Sign → Bool
  | .openRound | .closeRound => true
  | _ => false

/-- Words between which an operand may stand, not alone in brackets. -/
structure Gap (a b : List Token) : Prop where
  begun : a ≠ []
  before : endsInOperand a = false
  after : afterSign? .openRound b = none
  apart : ¬ Alone a b

section

variable {g : Sign} {a b ws : List Token} {text : String} {u : List Char}

theorem afterSign?_open_of_isRound (hg : g.isRound = false) (r : List Token) :
    afterSign? .openRound (.sign g :: r) = none := by
  refine if_neg ?_
  rintro rfl
  cases hg

theorem gap_after_open (hg : g.isRound = false) (r : List Token) :
    Gap [.sign .openRound] (.sign g :: r) := by
  refine ⟨List.cons_ne_nil _ _, rfl, afterSign?_open_of_isRound hg r, fun h => ?_⟩
  cases h.2
  cases hg

theorem gap_after_sign (hg : g.isRound = false) (a : List Token)
    (hb : afterSign? .openRound b = none) : Gap (a ++ [.sign g]) b := by
  refine ⟨by simp, ?_, hb, fun h => ?_⟩
  · rw [endsInOperand_append (List.cons_ne_nil _ _)]
    cases g with
    | closeRound => cases hg
    | _ => rfl
  · have hlast := h.1
    rw [List.getLast?_concat] at hlast
    cases hlast
    cases hg

theorem caretAsPower_eq_round {t : Token} {r : Sign} (hr : r.isRound = true)
    (h : t.caretAsPower = .sign r) : t = .sign r := by
  cases t with
  | sign s =>
    cases s with
    | caret =>
      cases h
      cases hr
    | _ => exact h
  | _ => cases h

theorem endsInOperand_caretAsPower (a : List Token) :
    endsInOperand (a.map Token.caretAsPower) = endsInOperand a := by
  unfold endsInOperand
  rw [List.getLast?_map]
  cases a.getLast? with
  | none => rfl
  | some t =>
    cases t with
    | sign s => cases s <;> rfl
    | _ => rfl

theorem afterSign?_open_caretAsPower (h : afterSign? .openRound b = none) :
    afterSign? .openRound (b.map Token.caretAsPower) = none := by
  cases b with
  | nil => rfl
  | cons t b =>
    cases t with
    | sign s =>
      cases s with
      | openRound => cases h
      | _ => rfl
    | _ => rfl

theorem Gap.caretAsPower (h : Gap a b) :
    Gap (a.map Token.caretAsPower) (b.map Token.caretAsPower) := by
  refine ⟨by simpa using h.begun, (endsInOperand_caretAsPower a).trans h.before,
    afterSign?_open_caretAsPower h.after, fun halone => h.apart ⟨?_, ?_⟩⟩
  · obtain ⟨t, ht, hopen⟩ := Option.map_eq_some_iff.mp (List.getLast?_map ▸ halone.1)
    rw [ht, caretAsPower_eq_round rfl hopen]
  · obtain ⟨t, ht, hclose⟩ := Option.map_eq_some_iff.mp (List.head?_map ▸ halone.2)
    rw [ht, caretAsPower_eq_round rfl hclose]

/-- The words of an operand are those of its text, or these in brackets. -/
theorem exists_operandOf (hpairs : bracketsPair 0 text.toList = true)
    (hs : IsPlainText text.toList)
    (h : Lexes (if isAtomic text then text else "(" ++ text ++ ")").toList ws) :
    ∃ us, Lexes text.toList us ∧ us <:+: ws ∧ OperandOf us ws ∧
      OperandOf (us.map Token.caretAsPower) (ws.map Token.caretAsPower) := by
  split at h
  · rename_i hatomic
    have hwords := isAtomicWords_of_isAtomic h hs hatomic
    refine ⟨ws, h, List.infix_refl ws, operandOf_self hwords, operandOf_self ?_⟩
    rwa [isAtomicWords_caretAsPower]
  · rw [toList_brackets] at h
    obtain ⟨us, rfl, hus⟩ := h.of_brackets
    have hbalanced := hus.balanced hpairs
    refine ⟨us, hus, ⟨[.sign .openRound], [.sign .closeRound], rfl⟩,
      operandOf_brackets hbalanced, ?_⟩
    have hbrackets := operandOf_brackets (balanced_caretAsPower.mpr hbalanced)
    rw [List.map_cons, List.map_append]
    exact hbrackets

/-- A text is a part of the texts in whose words it stands as an operand. -/
theorem encloses_operand (hpairs : bracketsPair 0 text.toList = true)
    (hs : IsPlainText text.toList)
    (h : ∀ ts, Lexes u ts → ∃ a ws b, ts = a ++ (ws ++ b) ∧ Gap a b ∧
      Lexes (if isAtomic text then text else "(" ++ text ++ ")").toList ws) :
    Encloses u text.toList := by
  intro ts hts
  obtain ⟨a, ws, b, rfl, hgap, hws⟩ := h ts hts
  obtain ⟨us, hus, hinside, hoperand, hoperand'⟩ := exists_operandOf hpairs hs hws
  have hgap' := hgap.caretAsPower
  refine ⟨us, hus, hinside.trans ⟨a, b, List.append_assoc a ws b⟩,
    hoperand.partOf hgap.begun hgap.before hgap.after hgap.apart, ?_⟩
  rw [List.map_append, List.map_append]
  exact hoperand'.partOf hgap'.begun hgap'.before hgap'.after hgap'.apart

/-- The left operand of a sign. -/
theorem encloses_left {sign : String} {o : Operator} (hsign : Joins sign g o)
    (hg : g.isRound = false) (hpairs : bracketsPair 0 text.toList = true)
    (hs : IsPlainText text.toList) :
    Encloses ('(' :: ((if isAtomic text then text else "(" ++ text ++ ")").toList ++
      ' ' :: (sign.toList ++ ' ' :: u)) ++ [')']) text.toList := by
  refine encloses_operand hpairs hs fun ts hts => ?_
  obtain ⟨us, rfl, hus⟩ := hts.of_brackets
  obtain ⟨ws, vs, rfl, hws, -⟩ := hus.of_join hsign
  refine ⟨_, ws, .sign g :: (vs ++ [.sign .closeRound]), ?_, gap_after_open hg _, hws⟩
  simp

/-- The right operand of a sign. -/
theorem encloses_right {sign : String} {o : Operator} (hsign : Joins sign g o)
    (hg : g.isRound = false) (hpairs : bracketsPair 0 text.toList = true)
    (hs : IsPlainText text.toList) :
    Encloses ('(' :: (u ++ ' ' :: (sign.toList ++ ' ' ::
      (if isAtomic text then text else "(" ++ text ++ ")").toList)) ++ [')']) text.toList := by
  refine encloses_operand hpairs hs fun ts hts => ?_
  obtain ⟨us, rfl, hus⟩ := hts.of_brackets
  obtain ⟨vs, ws, rfl, -, hws⟩ := hus.of_join hsign
  refine ⟨_, ws, _, ?_, gap_after_sign hg (.sign .openRound :: vs) (b := [.sign .closeRound]) rfl,
    hws⟩
  simp

/-- The operand of a minus. -/
theorem encloses_negated (hpairs : bracketsPair 0 text.toList = true)
    (hs : IsPlainText text.toList) :
    Encloses ('(' :: ('-' :: (if isAtomic text then text else "(" ++ text ++ ")").toList) ++ [')'])
      text.toList := by
  refine encloses_operand hpairs hs fun ts hts => ?_
  obtain ⟨us, rfl, hus⟩ := hts.of_brackets
  obtain ⟨ws, rfl, hws⟩ := hus.of_minus
  refine ⟨_, ws, _, ?_, gap_after_sign (g := .minus) rfl [.sign .openRound] (b := [.sign .closeRound]) rfl,
    hws⟩
  simp

end

/-! ## Arguments -/

section

variable {name : String} {fn : Fn} {count : ℕ} {s u : List Char}

/-- The only argument of a call. -/
theorem encloses_called (hname : Calls name fn count) (hpairs : bracketsPair 0 s = true)
    (hcommas : commasInside 0 s = true) : Encloses (name.toList ++ '(' :: (s ++ [')'])) s := by
  intro ts hts
  obtain ⟨us, rfl, hus⟩ := hts.of_call hname
  have hwhole := hus.whole hpairs hcommas
  refine ⟨us, hus, ⟨[.name name, .sign .openRound], [.sign .closeRound], rfl⟩,
    partOf_call hwhole (.inl rfl), ?_⟩
  rw [List.map_cons, List.map_cons, List.map_append]
  exact partOf_call hwhole.caretAsPower (.inl rfl)

/-- The first argument of a call. -/
theorem encloses_first (hname : Calls name fn count) (hpairs : bracketsPair 0 s = true)
    (hcommas : commasInside 0 s = true) :
    Encloses (name.toList ++ '(' :: ((s ++ ',' :: ' ' :: u) ++ [')'])) s := by
  intro ts hts
  obtain ⟨us, rfl, hus⟩ := hts.of_call hname
  obtain ⟨ws, vs, rfl, hws, -⟩ := hus.of_comma
  have hwhole := hws.whole hpairs hcommas
  refine ⟨ws, hws, ⟨[.name name, .sign .openRound], .sign .comma :: (vs ++ [.sign .closeRound]),
    by simp⟩, ?_, ?_⟩
  · rw [List.append_assoc]
    exact partOf_call hwhole (.inr rfl)
  · rw [List.map_cons, List.map_cons, List.append_assoc, List.map_append]
    exact partOf_call hwhole.caretAsPower (.inr rfl)

theorem ne_nil_of_lexes {ts : List Token} (h : Lexes s ts) (hs : ∃ c ∈ s, c ≠ ' ') : ts ≠ [] := by
  induction h with
  | nil => simp at hs
  | blank _ ih => exact ih (by simpa using hs)
  | word => exact List.cons_ne_nil _ _

/-- The second argument of a call. -/
theorem encloses_second (hname : Calls name fn count) (hpairs : bracketsPair 0 s = true)
    (hcommas : commasInside 0 s = true) (hs : ∃ c ∈ s, c ≠ ' ') :
    Encloses (name.toList ++ '(' :: ((u ++ ',' :: ' ' :: s) ++ [')'])) s := by
  intro ts hts
  obtain ⟨us, rfl, hus⟩ := hts.of_call hname
  obtain ⟨vs, ws, rfl, -, hws⟩ := hus.of_comma
  have hwhole := hws.whole hpairs hcommas
  have hne := ne_nil_of_lexes hws hs
  have hshape : Token.name name :: .sign .openRound ::
      ((vs ++ .sign .comma :: ws) ++ [.sign .closeRound]) =
        (.name name :: .sign .openRound :: vs) ++ .sign .comma :: (ws ++ [.sign .closeRound]) := by
    simp
  rw [hshape]
  refine ⟨ws, hws, ⟨.name name :: .sign .openRound :: (vs ++ [.sign .comma]),
    [.sign .closeRound], by simp⟩, partOf_after_comma hwhole hne (.inl rfl), ?_⟩
  simp only [List.map_append, List.map_cons]
  exact partOf_after_comma hwhole.caretAsPower (by simpa using hne) (.inl rfl)

end

end QuantumGates
