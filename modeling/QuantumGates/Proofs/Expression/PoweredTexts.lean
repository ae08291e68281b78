-- Texts with powers for carets. The reader of texts goes over blanks, comments and ends of lines as
-- before and finds the same words but for carets. Only a star right before a caret becomes another
-- word, and no arithmetic has these next to each other in either text.
import Mathlib.Data.List.Chain
import QuantumGates.Proofs.Expression.Enclosed
import QuantumGates.Proofs.Expression.PoweredWords
import QuantumGates.Proofs.Expression.Texts

namespace QuantumGates

/-! ## Steps between words -/

section

variable {limit : Option ℕ} {fuel depth : ℕ} {begun : Bool} {c : Char} {s : List Char}

theorem tokensFrom_nil : tokensFrom limit fuel depth begun [] = some [] := by
  cases fuel <;> rfl

theorem tokensFrom_of_blank (h : isInlineBlank c = true) :
    tokensFrom limit (fuel + 1) depth begun (c :: s) = tokensFrom limit fuel depth begun s := by
  rw [tokensFrom]
  · rw [h, if_pos rfl]
  · rintro rest rfl
    cases h

theorem tokensFrom_of_remark :
    tokensFrom limit (fuel + 1) depth begun ('#' :: s) =
      tokensFrom limit fuel depth begun (s.dropWhile (· != '\n')) := by
  rw [tokensFrom]
  · rfl
  · rintro rest ⟨⟩

/-- The end of a line ends the expression, unless it stands in brackets or before all words. -/
theorem tokensFrom_of_lineEnd :
    tokensFrom limit (fuel + 1) depth begun ('\n' :: s) =
      if 0 < depth then tokensFrom limit fuel depth begun s
      else if begun then (if onlyRemarks s then some [] else none)
      else if (s.head?.map isInlineBlank).getD false then none
      else tokensFrom limit fuel depth begun s := by
  rw [tokensFrom]
  · rfl
  · rintro rest ⟨⟩

theorem tokensFrom_of_escape :
    tokensFrom limit (fuel + 1) depth begun ('\\' :: '\n' :: s) =
      if s.isEmpty then none else tokensFrom limit fuel depth begun s := rfl

end

/-! ## Stars apart -/

/-- The signs that are written with stars or stand for them. -/
def Token.isStar : Token → Bool
  | .sign s => [Sign.star, .power, .caret].contains s
  | _ => false

/-- Words of arithmetic of which no two next to each other are stars. -/
structure StarsApart (ts : List Token) : Prop where
  plain : ∀ t ∈ ts, t.isPlain = true
  apart : ts.IsChain fun t u => ¬ (t.isStar = true ∧ u.isStar = true)

theorem StarsApart.tail {t : Token} {ts : List Token} (h : StarsApart (t :: ts)) : StarsApart ts :=
  ⟨fun u hu => h.plain u (List.mem_cons_of_mem t hu), h.apart.tail⟩

/-- Words of a text, and words of a changed text. Where they stand apart in either of them, those of
the changed text are those of the text with every word changed. -/
structure SameWords (change : Token → Token) (apart : List Token → Prop)
    (found found' : Option (List Token)) : Prop where
  forth : ∀ ts, found = some ts → apart ts → found' = some (ts.map change)
  back : ∀ us, found' = some us → apart us → ∃ ts, found = some ts ∧ ts.map change = us

namespace SameWords

variable {change : Token → Token} {apart : List Token → Prop} {found found' : Option (List Token)}

theorem none : SameWords change apart none none := ⟨nofun, nofun⟩

theorem nil : SameWords change apart (some []) (some []) where
  forth ts h _ := by
    cases h
    rfl
  back us h _ := ⟨[], rfl, Option.some.inj h⟩

theorem cons (h : SameWords change apart found found') (t : Token)
    (htail : ∀ u us, apart (u :: us) → apart us) :
    SameWords change apart (found.map (t :: ·)) (found'.map (change t :: ·)) where
  forth ts hts hapart := by
    obtain ⟨ts, hfound, rfl⟩ := Option.map_eq_some_iff.mp hts
    rw [h.forth ts hfound (htail t ts hapart)]
    rfl
  back us hus hapart := by
    obtain ⟨us, hfound, rfl⟩ := Option.map_eq_some_iff.mp hus
    obtain ⟨ts, hts, rfl⟩ := h.back us hfound (htail _ us hapart)
    exact ⟨t :: ts, by rw [hts]; rfl, rfl⟩

/-- Where they stand apart in neither of them, nothing is said. -/
theorem of_not_apart (h : ∀ ts, found = some ts → ¬ apart ts)
    (h' : ∀ us, found' = some us → ¬ apart us) : SameWords change apart found found' :=
  ⟨fun ts hts hapart => absurd hapart (h ts hts), fun us hus hapart => absurd hapart (h' us hus)⟩

end SameWords

/-- The words are the same but for carets, where stars are apart. -/
abbrev PoweredWords := SameWords Token.caretAsPower StarsApart

/-! ## Blanks and comments -/

theorem onlyRemarks_powered (s : List Char) :
    onlyRemarks (powered s) = onlyRemarks s ∧
      onlyRemarks.onlyRemarksAfter (powered s) = onlyRemarks.onlyRemarksAfter s := by
  induction s with
  | nil => exact ⟨rfl, rfl⟩
  | cons c s ih =>
    by_cases hc : c = '^'
    · subst hc
      exact ⟨rfl, ih.2⟩
    · rw [powered_cons hc]
      simp only [onlyRemarks, onlyRemarks.onlyRemarksAfter, ih, and_self]

section

variable {limit : Option ℕ} {fuel fuel' depth : ℕ} {begun : Bool} {c : Char} {s : List Char}

/-- Blanks, comments and ends of lines are passed in the same way. -/
theorem sameWords_of_space (hspace : startsWord (c :: s) = false)
    (hrest : ∀ rest depth begun, rest <:+ s → PoweredWords (tokensFrom limit fuel depth begun rest)
      (tokensFrom limit fuel' depth begun (powered rest))) :
    PoweredWords (tokensFrom limit (fuel + 1) depth begun (c :: s))
      (tokensFrom limit (fuel' + 1) depth begun (powered (c :: s))) := by
  have hself := hrest s depth begun (List.suffix_refl s)
  have hc : c ≠ '^' := by
    rintro rfl
    cases hspace
  rw [powered_cons hc]
  by_cases hblank : isInlineBlank c = true
  · rw [tokensFrom_of_blank hblank, tokensFrom_of_blank hblank]
    exact hself
  by_cases hremark : c = '#'
  · subst hremark
    rw [tokensFrom_of_remark, tokensFrom_of_remark, dropWhile_powered (by decide)]
    exact hrest _ depth begun (List.dropWhile_suffix _)
  by_cases hend : c = '\n'
  · subst hend
    rw [tokensFrom_of_lineEnd, tokensFrom_of_lineEnd, (onlyRemarks_powered s).1,
      head?_powered (by decide)]
    split
    · exact hself
    · split
      · split
        · exact .nil
        · exact .none
      · split
        · exact .none
        · exact hself
  · have hescape : c = '\\' ∧ s.head? = some '\n' := by
      simpa [startsWord, hblank, hremark, hend] using hspace
    obtain ⟨rfl, hhead⟩ := hescape
    obtain ⟨rest, rfl⟩ := List.head?_eq_some_iff.mp hhead
    rw [powered_cons (by decide), tokensFrom_of_escape, tokensFrom_of_escape, isEmpty_powered]
    split
    · exact .none
    · exact hrest rest depth begun (List.suffix_cons _ rest)

/-! ## Words -/

/-- A word that is read from a text comes first among its words. -/
theorem exists_cons_of_word {ts : List Token} (hs : startsWord s = true)
    (h : tokensFrom limit fuel depth begun s = some ts) :
    ∃ t rest us depth' fuel', takeToken? s = some (t, rest) ∧
      tokensFrom limit fuel' depth' true rest = some us ∧ ts = t :: us := by
  cases fuel with
  | zero =>
    rw [tokensFrom, if_neg] at h
    · cases h
    · intro hnil
      rw [List.isEmpty_iff.mp hnil] at hs
      cases hs
  | succ fuel =>
    rw [tokensFrom_of_word hs] at h
    split at h
    · cases h
    · rename_i t rest hword
      obtain ⟨us, hus, rfl⟩ := Option.map_eq_some_iff.mp (Option.ite_none_left_eq_some.mp h).2
      exact ⟨t, rest, us, _, fuel, hword, hus, rfl⟩

/-- A quoted text is no word of arithmetic. -/
theorem not_starsApart_of_quoted {ts : List Token} (hs : startsWord s = true)
    (htext : takeText? s ≠ none) (h : tokensFrom limit fuel depth begun s = some ts) :
    ¬ StarsApart ts := by
  obtain ⟨t, rest, us, -, -, hword, -, rfl⟩ := exists_cons_of_word hs h
  exact fun hapart => htext (takeText?_of_plain hword (hapart.plain t List.mem_cons_self))

/-- What begins with a caret or a star is a sign of these, if it is a word of arithmetic. -/
theorem isStar_of_takeToken? {t : Token} {rest : List Char} (hc : c = '^' ∨ c = '*')
    (h : takeToken? (c :: s) = some (t, rest)) : t.isStar = true ∨ t.isPlain = false := by
  have hall : ∀ p ∈ signSpellings, p.1.toList.head? = some '^' ∨ p.1.toList.head? = some '*' →
      (Token.sign p.2).isStar = true ∨ (Token.sign p.2).isPlain = false := by decide
  rw [takeToken?_of_star hc] at h
  obtain ⟨x, hsymbol, heq⟩ := Option.map_eq_some_iff.mp h
  cases heq
  obtain ⟨p, hmem, hsign, hhead⟩ := exists_head_of_takeSymbol? hsymbol
  have hstar := hall p hmem
  rw [hhead, hsign] at hstar
  exact hstar (hc.imp (congrArg some) (congrArg some))

/-- A star right before a caret, or before another star, is no arithmetic. -/
theorem not_starsApart_of_stars {t : Token} {rest : List Char} {ts : List Token}
    (hs : startsWord s = true) (hword : takeToken? s = some (t, c :: rest)) (ht : t.isStar = true)
    (hc : c = '^' ∨ c = '*') (h : tokensFrom limit fuel depth begun s = some ts) :
    ¬ StarsApart ts := by
  obtain ⟨t', rest', us, depth', fuel', hread, hus, rfl⟩ := exists_cons_of_word hs h
  obtain ⟨rfl, rfl⟩ := Prod.mk.inj (Option.some.inj (hword.symm.trans hread))
  have hstart : startsWord (c :: rest) = true := by
    rcases hc with rfl | rfl
    · rfl
    · rfl
  obtain ⟨u, _, vs, _, _, hnext, _, rfl⟩ := exists_cons_of_word hstart hus
  intro hapart
  rcases isStar_of_takeToken? hc hnext with hu | hu
  · exact (List.isChain_cons_cons.mp hapart.apart).1 ⟨ht, hu⟩
  · rw [hapart.plain u (by simp)] at hu
    cases hu

theorem startsWord_powered (s : List Char) : startsWord (powered s) = startsWord s := by
  cases s with
  | nil => rfl
  | cons c s =>
    by_cases hc : c = '^'
    · subst hc
      rfl
    · have hend := head?_powered_eq (c := '\n') (s := s) (by decide) (by decide)
      rw [powered_cons hc]
      simp only [startsWord, beq_eq_beq.mpr hend]

theorem depthAfterWord_caretAsPower (depth : ℕ) (t : Token) :
    depthAfterWord depth t.caretAsPower = depthAfterWord depth t := by
  by_cases ht : t = .sign .caret
  · subst ht
    rfl
  · rw [caretAsPower_of_ne ht]

/-- A word that is the same but for a caret, and the words after it. -/
theorem sameWords_of_takeToken? (hs : startsWord s = true)
    (hword : takeToken? (powered s) = poweredWord (takeToken? s))
    (hrest : ∀ rest depth, rest.length < s.length → (powered rest).length < (powered s).length →
      PoweredWords (tokensFrom limit fuel depth true rest)
        (tokensFrom limit fuel' depth true (powered rest))) :
    PoweredWords (tokensFrom limit (fuel + 1) depth begun s)
      (tokensFrom limit (fuel' + 1) depth begun (powered s)) := by
  rw [tokensFrom_of_word hs, tokensFrom_of_word ((startsWord_powered s).trans hs), hword]
  cases hfound : takeToken? s with
  | none => exact .none
  | some x =>
    obtain ⟨t, rest⟩ := x
    show PoweredWords (if exceeds limit (depthAfterWord depth t) then _ else _)
      (if exceeds limit (depthAfterWord depth t.caretAsPower) then _ else _)
    rw [depthAfterWord_caretAsPower]
    split
    · exact .none
    · cases ht : t.isPlain with
      | true =>
        obtain ⟨w, hw⟩ := spelled_of_takeToken? hfound ht
        have hlength : 0 < w.length := List.length_pos_iff.mpr hw.takes
        have hpowered : 0 < (powered w).length := by
          rw [List.length_pos_iff, ← List.isEmpty_eq_false_iff, isEmpty_powered,
            List.isEmpty_eq_false_iff]
          exact hw.takes
        refine (hrest rest _ ?_ ?_).cons t fun _ _ => StarsApart.tail
        · rw [hw.split, List.length_append]
          omega
        · rw [hw.split, powered_append, List.length_append]
          omega
      | false =>
        refine .of_not_apart (fun ts hts hapart => ?_) fun us hus hapart => ?_
        · obtain ⟨ts, -, rfl⟩ := Option.map_eq_some_iff.mp hts
          rw [hapart.plain t List.mem_cons_self] at ht
          cases ht
        · obtain ⟨us, -, rfl⟩ := Option.map_eq_some_iff.mp hus
          rw [← isPlain_caretAsPower, hapart.plain _ List.mem_cons_self] at ht
          cases ht

theorem sameWords_of_word (hs : startsWord s = true)
    (hrest : ∀ rest depth, rest.length < s.length → (powered rest).length < (powered s).length →
      PoweredWords (tokensFrom limit fuel depth true rest)
        (tokensFrom limit fuel' depth true (powered rest))) :
    PoweredWords (tokensFrom limit (fuel + 1) depth begun s)
      (tokensFrom limit (fuel' + 1) depth begun (powered s)) := by
  have hs' := (startsWord_powered s).trans hs
  by_cases htext : takeText? s = none
  · by_cases hstar : ∃ r, s = '*' :: '^' :: r
    · obtain ⟨r, rfl⟩ := hstar
      refine .of_not_apart (fun ts hts => ?_) fun us hus => ?_
      · exact not_starsApart_of_stars hs rfl rfl (.inl rfl) hts
      · have hword : takeToken? (powered ('*' :: '^' :: r)) = some (.sign .power, '*' :: powered r) :=
          rfl
        exact not_starsApart_of_stars hs' hword rfl (.inr rfl) hus
    · exact sameWords_of_takeToken? hs (takeToken?_powered htext fun r heq => hstar ⟨r, heq⟩) hrest
  · refine .of_not_apart (fun ts hts => not_starsApart_of_quoted hs htext hts) fun us hus => ?_
    exact not_starsApart_of_quoted hs' (mt (takeText?_powered s).mp htext) hus

/-! ## Whole texts -/

/-- The words of a text and those of the text with powers for carets are the same but for carets,
where stars are apart. -/
theorem sameWords_tokensFrom (hfuel : s.length ≤ fuel) (hfuel' : (powered s).length ≤ fuel') :
    PoweredWords (tokensFrom limit fuel depth begun s)
      (tokensFrom limit fuel' depth begun (powered s)) := by
  induction fuel generalizing fuel' depth begun s with
  | zero =>
    obtain rfl := List.length_eq_zero_iff.mp (Nat.le_zero.mp hfuel)
    rw [powered, tokensFrom_nil, tokensFrom_nil]
    exact .nil
  | succ fuel ih =>
    cases s with
    | nil =>
      rw [powered, tokensFrom_nil, tokensFrom_nil]
      exact .nil
    | cons c s =>
      have hpositive := length_powered_cons c s
      obtain ⟨fuel', rfl⟩ : ∃ n, fuel' = n + 1 := ⟨fuel' - 1, by omega⟩
      rw [List.length_cons] at hfuel
      cases hword : startsWord (c :: s) with
      | false =>
        refine sameWords_of_space hword fun rest depth begun hrest => ih ?_ ?_
        · have hle := hrest.length_le
          omega
        · have hle := (powered_suffix hrest).length_le
          omega
      | true =>
        refine sameWords_of_word hword fun rest depth h h' => ih ?_ (by omega)
        rw [List.length_cons] at h
        omega

/-- A text with a double star in the place of each caret. -/
def withPowers (text : String) : String := String.ofList (powered text.toList)

theorem trimBlank_powered (s : List Char) : trimBlank (powered s) = powered (trimBlank s) := by
  have hblank : isBlank '^' = isBlank '*' := by decide
  unfold trimBlank
  rw [dropWhile_powered hblank, ← powered_reverse, dropWhile_powered hblank, ← powered_reverse]

theorem unifyLineEnds_powered (s : List Char) :
    unifyLineEnds (powered s) = powered (unifyLineEnds s) := by
  induction s using unifyLineEnds.induct with
  | case1 => rfl
  | case2 rest ih =>
    rw [unifyLineEnds, powered_cons (by decide), powered_cons (by decide), unifyLineEnds, ih,
      powered_cons (by decide)]
  | case3 rest hrest ih =>
    rw [unifyLineEnds, powered_cons (by decide), powered_cons (by decide), unifyLineEnds, ih]
    · exact powered_ne_cons (by decide) (by decide) hrest
    · exact hrest
  | case4 c rest hfeeds hreturn ih =>
    rw [unifyLineEnds]
    · by_cases hc : c = '^'
      · subst hc
        rw [powered_caret, powered_caret, ← ih]
        rfl
      · rw [powered_cons hc, powered_cons hc, unifyLineEnds, ih]
        · rintro rest' rfl heq
          exact powered_ne_cons (by decide) (by decide) (fun tail h => hfeeds tail rfl h) rest' heq
        · exact hreturn
    · exact hfeeds
    · exact hreturn

theorem sameWords_withPowers (limit : Option ℕ) (text : String) :
    PoweredWords (tokensWithin? limit text) (tokensWithin? limit (withPowers text)) := by
  unfold tokensWithin? withPowers
  rw [String.toList_ofList, trimBlank_powered, unifyLineEnds_powered]
  generalize unifyLineEnds (trimBlank text.toList) = s
  have hnull : (powered s).contains (Char.ofNat 0) = s.contains (Char.ofNat 0) := by
    rw [Bool.eq_iff_iff, List.contains_iff_mem, List.contains_iff_mem]
    exact mem_powered (by decide) (by decide)
  simp only [hnull]
  split
  · exact .none
  · exact sameWords_tokensFrom (Nat.le_succ _) (Nat.le_succ _)

end

end QuantumGates
