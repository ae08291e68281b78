-- Texts that keep together. If the round brackets of a text are in pairs, no bracket around the
-- text can be closed by it, and if its commas stand inside its brackets, it is one argument wherever
-- it is put. What such a text is in a longer expression, it is by itself.
import QuantumGates.Proofs.Expression.Places
import QuantumGates.Proofs.Expression.Separation

namespace QuantumGates

/-! ## Words that keep together -/

/-- Words with their brackets in pairs and no comma outside of them. -/
structure Whole (ts : List Token) : Prop where
  balanced : Balanced ts
  together : ∀ a b, ts = a ++ .sign .comma :: b → ¬ Balanced a

section

variable {a b r r' ts us ws post rest : List Token} {x y : Node} {xs : List Node} {c d : Sign}

/-- Words with brackets in pairs close no bracket that is not theirs. -/
theorem Balanced.not_closing (ha : Balanced a) : ¬ Balanced (a ++ .sign .closeRound :: r) := by
  intro h
  have hcloses := h.closes 1 [.sign .closeRound] Nat.one_pos
  rw [List.append_assoc, ha.closes 1 _ Nat.one_pos] at hcloses
  have hempty : (r ++ [Token.sign .closeRound]).isEmpty = true := hcloses
  simp at hempty

theorem whole_nil : Whole [] := ⟨balanced_nil, fun _ _ h => (nil_ne_append_cons h).elim⟩

/-- Before a comma or a closing bracket, words that keep together have no shorter such words. -/
theorem Whole.not_cut (hc : c = .closeRound ∨ c = .comma) (h : Whole (a ++ .sign c :: r)) :
    ¬ Balanced a := by
  rcases hc with rfl | rfl
  · exact fun ha => ha.not_closing h.balanced
  · exact h.together a r rfl

/-- Words that keep together are told apart from what follows by the first comma or closing bracket
that is not in them. -/
theorem Whole.unique (ha : Whole a) (hb : Whole b) (hc : c = .closeRound ∨ c = .comma)
    (hd : d = .closeRound ∨ d = .comma) (h : a ++ .sign c :: r = b ++ .sign d :: r') :
    a = b ∧ c = d ∧ r = r' := by
  rcases append_eq_append_cons h with ⟨s, rfl, -⟩ | ⟨p, rfl, hrest⟩
  · exact absurd hb.balanced (ha.not_cut hd)
  · rcases cons_eq_append_cons hrest with ⟨rfl, hsign, rfl⟩ | ⟨q, rfl, -⟩
    · exact ⟨(List.append_nil a).symm, Token.sign.inj hsign, rfl⟩
    · exact absurd ha.balanced (hb.not_cut hc)

theorem true_comesDown : ComesDown (fun _ => True) fun _ => True :=
  ⟨fun _ => trivial, fun _ => trivial, fun _ => ⟨trivial, trivial⟩, fun _ => ⟨trivial, by simp⟩⟩

/-- Derived words keep together: their commas stand in the brackets of calls. -/
theorem Derives.whole {g : Goal} (h : Derives g ts x) : Whole ts := by
  refine ⟨h.balanced, ?_⟩
  rintro a b rfl ha
  obtain ⟨us, post, xs, rfl, hus, -⟩ := h.argumentsAt_comma true_comesDown trivial rfl
  have hbefore : Balanced (a ++ .sign .comma :: us) :=
    ha.append (hus.balanced.cons rfl (by simp) (by simp))
  refine hbefore.not_closing (r := post) ?_
  rw [List.append_assoc]
  exact h.balanced

/-- Words that keep together are the first argument, or there is none. -/
theorem DerivesArguments.first (h : DerivesArguments us xs) (ha : Whole a)
    (hc : c = .closeRound ∨ c = .comma)
    (heq : us ++ .sign .closeRound :: r = a ++ .sign c :: r') :
    (∃ x ∈ xs, Derives (.chain 0) a x) ∨ a = [] ∧ c = .closeRound ∧ xs = [] := by
  cases h with
  | nil =>
    obtain ⟨rfl, rfl, -⟩ := whole_nil.unique ha (.inl rfl) hc heq
    exact .inr ⟨rfl, rfl, rfl⟩
  | last h =>
    obtain ⟨rfl, -, -⟩ := h.whole.unique ha (.inl rfl) hc heq
    exact .inl ⟨_, List.mem_cons_self, h⟩
  | cons h h' =>
    rw [List.append_assoc, List.cons_append] at heq
    obtain ⟨rfl, -, -⟩ := h.whole.unique ha (.inr rfl) hc heq
    exact .inl ⟨_, List.mem_cons_self, h⟩

/-! ## Carets -/

theorem isPlain_caretAsPower (t : Token) : t.caretAsPower.isPlain = t.isPlain := by
  cases t with
  | sign s => cases s <;> rfl
  | _ => rfl

theorem caretAsPower_eq_comma {t : Token} (h : t.caretAsPower = .sign .comma) :
    t = .sign .comma := by
  cases t with
  | sign s =>
    cases s with
    | comma => rfl
    | _ => cases h
  | _ => cases h

theorem caretAsPower_caretAsPower (t : Token) : t.caretAsPower.caretAsPower = t.caretAsPower := by
  cases t with
  | sign s => cases s <;> rfl
  | _ => rfl

theorem closesLast_caretAsPower_append (depth : ℕ) :
    closesLast depth (ts.map Token.caretAsPower ++ r) = closesLast depth (ts ++ r) := by
  have htwice : (ts.map Token.caretAsPower).map Token.caretAsPower =
      ts.map Token.caretAsPower := by
    rw [List.map_map]
    exact List.map_congr_left fun t _ => caretAsPower_caretAsPower t
  rw [← closesLast_caretAsPower, ← closesLast_caretAsPower depth (ts ++ r), List.map_append,
    List.map_append, htwice]

theorem balanced_caretAsPower : Balanced (ts.map Token.caretAsPower) ↔ Balanced ts := by
  constructor
  · rintro ⟨hplain, hcloses⟩
    refine ⟨fun t ht => ?_, fun depth r hdepth => ?_⟩
    · rw [← isPlain_caretAsPower]
      exact hplain _ (List.mem_map_of_mem ht)
    · rw [← closesLast_caretAsPower_append]
      exact hcloses depth r hdepth
  · rintro ⟨hplain, hcloses⟩
    refine ⟨fun t ht => ?_, fun depth r hdepth => ?_⟩
    · obtain ⟨u, hu, rfl⟩ := List.mem_map.mp ht
      rw [isPlain_caretAsPower]
      exact hplain u hu
    · rw [closesLast_caretAsPower_append]
      exact hcloses depth r hdepth

theorem Whole.caretAsPower (h : Whole ts) : Whole (ts.map Token.caretAsPower) := by
  refine ⟨balanced_caretAsPower.mpr h.balanced, fun a b heq => ?_⟩
  obtain ⟨a', b', rfl, rfl, hb⟩ := List.map_eq_append_iff.mp heq
  obtain ⟨t, b', rfl, ht, -⟩ := List.map_eq_cons_iff.mp hb
  rw [balanced_caretAsPower]
  exact h.together a' b' (by rw [caretAsPower_eq_comma ht])

/-! ## Operands -/

theorem eq_nil_of_closesLast_append {depth : ℕ} (h : closesLast depth a = true)
    (h' : closesLast depth (a ++ r) = true) : r = [] := by
  induction a generalizing depth with
  | nil => cases h
  | cons t a ih =>
    by_cases hopen : t = .sign .openRound
    · subst hopen
      have hinner : closesLast (depth + 1) a = true := h
      exact ih hinner h'
    by_cases hclose : t = .sign .closeRound
    · subst hclose
      have hstep : (if depth = 1 then a.isEmpty else closesLast (depth - 1) a) = true := h
      have hstep' : (if depth = 1 then (a ++ r).isEmpty
        else closesLast (depth - 1) (a ++ r)) = true := h'
      split at hstep
      · rename_i hdepth
        rw [if_pos hdepth, List.isEmpty_iff, List.append_eq_nil_iff] at hstep'
        exact hstep'.2
      · rename_i hdepth
        rw [if_neg hdepth] at hstep'
        exact ih hstep hstep'
    · rw [closesLast_cons hopen hclose] at h
      rw [List.cons_append, closesLast_cons hopen hclose] at h'
      exact ih h h'

/-- The bracket that is open closes at the same place, wherever the words end. -/
theorem eq_of_closesLast (ha : Balanced a) (hw : closesLast 1 ws = true)
    (h : a ++ .sign .closeRound :: r = ws ++ rest) : ws = a ++ [.sign .closeRound] ∧ r = rest := by
  have hclose : closesLast 1 (a ++ [.sign .closeRound]) = true := by
    rw [ha.closes 1 _ Nat.one_pos]
    rfl
  rw [← List.singleton_append, ← List.append_assoc] at h
  rcases List.append_eq_append_iff.mp h with ⟨p, rfl, rfl⟩ | ⟨p, hp, rfl⟩
  · obtain rfl := eq_nil_of_closesLast_append hclose hw
    exact ⟨List.append_nil _, rfl⟩
  · rw [hp] at hclose
    obtain rfl := eq_nil_of_closesLast_append hw hclose
    rw [List.append_nil] at hp
    exact ⟨hp.symm, rfl⟩

/-- Nothing follows a primary as a part of it before words that begin with no bracket. -/
theorem Derives.eq_nil_of_primaryFrom (h : Derives (.primaryFrom y) us x)
    (hrest : afterSign? .openRound (us ++ post) = none) : us = [] := by
  cases h with
  | primaryEnd => rfl
  | call _ _ => cases hrest

/-- A single word, a bracket or a call, where no bracket follows, is the primary that begins with
it. -/
theorem Derives.eq_of_isAtomicWords (h : Derives .primary us y) (hw : isAtomicWords ws = true)
    (heq : ws ++ rest = us ++ post) (hpost : afterSign? .openRound post = none)
    (hrest : afterSign? .openRound rest = none) : us = ws := by
  obtain ⟨t, ws, rfl⟩ := List.exists_cons_of_ne_nil (show ws ≠ [] by rintro rfl; cases hw)
  cases h with
  | word hword hfrom =>
    simp only [List.cons_append, List.cons.injEq] at heq
    obtain ⟨rfl, hafter⟩ := heq
    cases ws with
    | nil =>
      rw [List.nil_append] at hafter
      rw [hfrom.eq_nil_of_primaryFrom (hafter ▸ hrest)]
    | cons u ws =>
      cases hword with
      | whole => cases hw
      | decimal => cases hw
      | name hid =>
        -- The word after the name has to be the bracket that opens the call.
        obtain rfl : u = .sign .openRound := by
          unfold isAtomicWords at hw
          split at hw <;> simp_all
        have hcloses : closesLast 1 ws = true := hw
        cases hfrom with
        | primaryEnd =>
          rw [List.nil_append] at hafter
          rw [← hafter] at hpost
          cases hpost
        | call hargs hmore =>
          simp only [List.cons_append, List.append_assoc, List.cons.injEq, true_and] at hafter
          obtain ⟨rfl, hend⟩ := eq_of_closesLast hargs.balanced hcloses hafter.symm
          rw [hmore.eq_nil_of_primaryFrom (hend ▸ hrest)]
  | bracket hts hfrom =>
    simp only [List.cons_append, List.append_assoc, List.cons.injEq] at heq
    obtain ⟨rfl, hafter⟩ := heq
    have hcloses : closesLast 1 ws = true := hw
    obtain ⟨rfl, hend⟩ := eq_of_closesLast hts.balanced hcloses hafter.symm
    rw [hfrom.eq_nil_of_primaryFrom (hend ▸ hrest)]

/-! ## Parts of expressions -/

/-- Where the words `ts` are an expression, the words `us` are one as well, or they are missing as
the only argument of a call. What holds of the tree of `ts` holds of the tree of `us` as far as it
comes down to operands and arguments. -/
def PartOf (us ts : List Token) : Prop :=
  ∀ (P Q : Node → Prop) (x : Node), ComesDown P Q → Derives (.chain 0) ts x → Q x →
    (∃ y, Derives (.chain 0) us y ∧ P y) ∨ us = [] ∧ ∃ f, Q (.mk (.call false) [f])

/-- An operand with its signs is a chain of every strength. -/
theorem Derives.chain_of_factor {k : ℕ} (h : Derives .factor ts x) (hk : k ≤ 10) :
    Derives (.chain k) ts x := by
  induction hk using Nat.decreasingInduction with
  | self => exact .factor h
  | of_succ k hk ih =>
    have hend := Derives.chain hk ih .chainEnd
    rwa [List.append_nil] at hend

/-- A primary is an expression. -/
theorem Derives.expression_of_primary (h : Derives .primary ts x) : Derives (.chain 0) ts x :=
  chain_of_factor (.unsigned (.base h)) (Nat.zero_le 10)

/-- The words are a single operand of a longer expression, and `us` are the words of the operand
without the brackets that it may have got. -/
structure OperandOf (us words : List Token) : Prop where
  atomic : isAtomicWords words = true
  inner : ∀ y, Derives .primary words y → Derives (.chain 0) us y

theorem operandOf_self (h : isAtomicWords us = true) : OperandOf us us :=
  ⟨h, fun _ hy => hy.expression_of_primary⟩

theorem operandOf_brackets (h : Balanced us) :
    OperandOf us (.sign .openRound :: us ++ [.sign .closeRound]) := by
  have hcloses : closesLast 1 (us ++ [.sign .closeRound]) = true := by
    rw [h.closes 1 _ Nat.one_pos]
    rfl
  refine ⟨hcloses, fun y hy => ?_⟩
  rw [List.cons_append] at hy
  generalize hws : us ++ [.sign .closeRound] = ws at hy
  cases hy with
  | word hword => cases hword
  | @bracket ts more y' _ hts hfrom =>
    rw [hws] at hcloses
    have hall : ts ++ .sign .closeRound :: more = ts ++ .sign .closeRound :: more ++ [] :=
      (List.append_nil _).symm
    obtain ⟨hwords, rfl⟩ := eq_of_closesLast hts.balanced hcloses hall
    obtain rfl := List.append_cancel_right (hws.trans hwords)
    cases hfrom with
    | primaryEnd => exact hts

theorem OperandOf.exists_cons (h : OperandOf us ws) :
    ∃ t more, ws = t :: more ∧ t.beginsOperand = true := by
  have hatomic := h.atomic
  cases ws with
  | nil => cases hatomic
  | cons t more =>
    refine ⟨t, more, rfl, ?_⟩
    cases t with
    | sign s =>
      cases s with
      | openRound => rfl
      | _ => cases hatomic
    | name | whole | decimal => rfl
    | _ => cases hatomic

/-- An operand between words that are no part of it is a part of the expression, unless it stands
in brackets of its own. -/
theorem OperandOf.partOf (h : OperandOf us ws) (ha : a ≠ []) (hpre : endsInOperand a = false)
    (hrest : afterSign? .openRound b = none) (halone : ¬ Alone a b) :
    PartOf us (a ++ (ws ++ b)) := by
  intro P Q x hPQ hx hQ
  obtain ⟨t, more, rfl, ht⟩ := h.exists_cons
  obtain ⟨words, post, y, hwords, hy, hpost, hP⟩ :=
    (hx.standsOrIs hPQ hQ rfl ht hpre rfl).of_ne_nil ha
  obtain rfl := hy.eq_of_isAtomicWords h.atomic hwords hpost hrest
  obtain rfl := List.append_cancel_left (show (t :: more) ++ b = (t :: more) ++ post from hwords)
  exact .inl ⟨y, h.inner y hy, hP.resolve_left halone⟩

/-- What begins with the name of a function and a bracket calls the function on the words that
come before the first comma or closing bracket that is not in them. -/
theorem partOf_call {id : String} (hus : Whole us) (hc : c = .closeRound ∨ c = .comma) :
    PartOf us (.name id :: .sign .openRound :: (us ++ .sign c :: r)) := by
  intro P Q x hPQ hx hQ
  have hfirst : ∃ ws post y, .name id :: .sign .openRound :: (us ++ .sign c :: r) = ws ++ post ∧
      Derives .primary ws y ∧ afterSign? .openRound post = none ∧ Q y := by
    have hplace : StandsOrIs P [] _ x := hx.standsOrIs hPQ hQ rfl rfl rfl rfl
    rcases hplace with ⟨ws, post, y, hwords, hy, hpost, halone | hP⟩ | ⟨-, hx⟩
    · cases halone.1
    · exact ⟨ws, post, y, hwords, hy, hpost, hPQ.weaken hP⟩
    · exact ⟨_, [], x, (List.append_nil _).symm, hx, rfl, hQ⟩
  obtain ⟨ws, post, y, hwords, hy, hpost, hQ⟩ := hfirst
  cases hy with
  | bracket => cases hwords
  | word hword hfrom =>
    simp only [List.cons_append, List.cons.injEq] at hwords
    obtain ⟨rfl, hafter⟩ := hwords
    cases hfrom with
    | primaryEnd =>
      rw [List.nil_append] at hafter
      rw [← hafter] at hpost
      cases hpost
    | call hargs hmore =>
      have hcall := hmore.leftHolds hPQ hQ
      simp only [List.cons_append, List.append_assoc, List.cons.injEq, true_and] at hafter
      rcases hargs.first hus hc hafter.symm with ⟨z, hz, hderives⟩ | ⟨rfl, -, rfl⟩
      · exact .inl ⟨z, hderives, (hPQ.call hcall).2 z hz⟩
      · exact .inr ⟨rfl, _, hcall⟩

/-- The words after a comma of an expression up to the next comma or closing bracket that is not in
them are an argument, unless they are missing. -/
theorem partOf_after_comma (hus : Whole us) (hne : us ≠ []) (hc : c = .closeRound ∨ c = .comma) :
    PartOf us (a ++ .sign .comma :: (us ++ .sign c :: r)) := by
  intro P Q x hPQ hx hQ
  obtain ⟨ts, post, xs, hwords, hargs, hP⟩ := hx.argumentsAt_comma hPQ hQ rfl
  rcases hargs.first hus hc hwords.symm with ⟨z, hz, hderives⟩ | ⟨hnil, -, -⟩
  · exact .inl ⟨z, hderives, hP z hz⟩
  · exact absurd hnil hne

end

end QuantumGates
