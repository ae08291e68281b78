-- Carets written as double stars. No number, name, blank or comment looks closer at a caret or a
-- star, so all of them are read in the same way where carets are replaced, and so is every sign but
-- a star right before a caret.
import QuantumGates.Proofs.Expression.Words

namespace QuantumGates

/-! ## Carets as double stars -/

/-- A text with a double star in the place of each caret. -/
def powered : List Char → List Char
  | [] => []
  | c :: s => if c = '^' then '*' :: '*' :: powered s else c :: powered s

section

variable {c : Char} {s : List Char}

theorem powered_caret (s : List Char) : powered ('^' :: s) = '*' :: '*' :: powered s := rfl

theorem powered_cons (hc : c ≠ '^') (s : List Char) : powered (c :: s) = c :: powered s := if_neg hc

theorem powered_append (s u : List Char) : powered (s ++ u) = powered s ++ powered u := by
  induction s with
  | nil => rfl
  | cons c s ih =>
    by_cases hc : c = '^'
    · subst hc
      rw [List.cons_append, powered_caret, powered_caret, ih]
      rfl
    · rw [List.cons_append, powered_cons hc, powered_cons hc, ih, List.cons_append]

theorem powered_reverse (s : List Char) : powered s.reverse = (powered s).reverse := by
  induction s with
  | nil => rfl
  | cons c s ih =>
    rw [List.reverse_cons, powered_append, ih]
    by_cases hc : c = '^'
    · subst hc
      simp [powered]
    · simp [powered, hc]

theorem mem_powered (hcaret : c ≠ '^') (hstar : c ≠ '*') : c ∈ powered s ↔ c ∈ s := by
  induction s with
  | nil => exact Iff.rfl
  | cons d s ih =>
    by_cases hd : d = '^'
    · subst hd
      simp [powered_caret, hcaret, hstar, ih]
    · simp [powered_cons hd, ih]

theorem powered_suffix {rest : List Char} (h : rest <:+ s) : powered rest <:+ powered s := by
  obtain ⟨w, rfl⟩ := h
  exact ⟨powered w, (powered_append w rest).symm⟩

theorem length_powered_cons (c : Char) (s : List Char) :
    (powered s).length < (powered (c :: s)).length := by
  by_cases hc : c = '^'
  · subst hc
    rw [powered_caret, List.length_cons, List.length_cons]
    omega
  · rw [powered_cons hc, List.length_cons]
    omega

theorem isEmpty_powered (s : List Char) : (powered s).isEmpty = s.isEmpty := by
  cases s with
  | nil => rfl
  | cons c s =>
    by_cases hc : c = '^'
    · subst hc
      rfl
    · rw [powered_cons hc]
      rfl

/-- The first character is the same to a question that does not tell a caret from a star. -/
theorem head?_powered {α : Type} {f : Char → α} (hf : f '^' = f '*') (s : List Char) :
    (powered s).head?.map f = s.head?.map f := by
  cases s with
  | nil => rfl
  | cons c s =>
    by_cases hc : c = '^'
    · subst hc
      exact congrArg some hf.symm
    · rw [powered_cons hc]
      rfl

theorem head?_powered_eq (hcaret : c ≠ '^') (hstar : c ≠ '*') :
    (powered s).head? = some c ↔ s.head? = some c := by
  cases s with
  | nil => exact Iff.rfl
  | cons d s =>
    by_cases hd : d = '^'
    · subst hd
      simp [powered_caret, hcaret.symm, hstar.symm]
    · simp [powered_cons hd]

theorem takeWhile_powered {p : Char → Bool} (hcaret : p '^' = false) (hstar : p '*' = false)
    (s : List Char) : (powered s).takeWhile p = s.takeWhile p := by
  induction s with
  | nil => rfl
  | cons c s ih =>
    by_cases hc : c = '^'
    · subst hc
      rw [powered_caret, List.takeWhile_cons_of_neg (by simp [hstar]),
        List.takeWhile_cons_of_neg (by simp [hcaret])]
    · rw [powered_cons hc, List.takeWhile_cons, List.takeWhile_cons, ih]

theorem dropWhile_powered {p : Char → Bool} (hp : p '^' = p '*') (s : List Char) :
    (powered s).dropWhile p = powered (s.dropWhile p) := by
  induction s with
  | nil => rfl
  | cons c s ih =>
    by_cases hc : c = '^'
    · subst hc
      rw [powered_caret, List.dropWhile_cons, List.dropWhile_cons, List.dropWhile_cons, ih, ← hp]
      cases p '^' with
      | false => rfl
      | true => rfl
    · rw [powered_cons hc, List.dropWhile_cons, List.dropWhile_cons, ih]
      cases p c with
      | false => exact (powered_cons hc s).symm
      | true => rfl

/-! ## Numbers -/

/-- What is read from a text is read from it with powers for carets as well, and the rest has powers
for carets. -/
def Unaffected {α : Type} (scan : List Char → α × List Char) : Prop :=
  ∀ s, scan (powered s) = ((scan s).1, powered (scan s).2)

variable {digit : Char → Option ℕ}

theorem ne_caret_of_digit (hcaret : digit '^' = none) {d : ℕ} (h : digit c = some d) : c ≠ '^' := by
  rintro rfl
  rw [hcaret] at h
  cases h

theorem unaffected_moreDigits (hcaret : digit '^' = none) (hstar : digit '*' = none) :
    Unaffected (moreDigits digit) := by
  -- where no digit is read, a double star is none either
  have hstop (c : Char) (s : List Char) (hc : digit c = none) (hlow : c ≠ '_') :
      moreDigits digit (powered (c :: s)) = ([], powered (c :: s)) := by
    by_cases hpower : c = '^'
    · subst hpower
      exact moreDigits_cons_none hstar (by decide) _
    · rw [powered_cons hpower]
      exact moreDigits_cons_none hc hlow _
  intro s
  fun_induction moreDigits digit s with
  | case1 => rfl
  | case2 c d h =>
    rw [powered_cons (ne_caret_of_digit hcaret h), moreDigits_cons_some h]
    rfl
  | case3 c h =>
    by_cases hlow : c = '_'
    · subst hlow
      simp [powered, moreDigits, h]
    · exact hstop c [] h hlow
  | case4 c c' r d h ds tail heq ih =>
    rw [powered_cons (ne_caret_of_digit hcaret h), moreDigits_cons_some h, ih, heq]
  | case5 c' r d h ds tail heq hlow ih =>
    rw [powered_cons (by decide), powered_cons (ne_caret_of_digit hcaret h),
      moreDigits_low_some hlow h, ih, heq]
  | case6 c' r h hlow =>
    by_cases hpower : c' = '^'
    · subst hpower
      exact moreDigits_low_none hlow hstar _
    · rw [powered_cons (by decide), powered_cons hpower]
      exact moreDigits_low_none hlow h _
  | case7 c c' r h hlow => exact hstop c (c' :: r) h hlow

theorem unaffected_takeDigits (hcaret : digit '^' = none) (hstar : digit '*' = none) :
    Unaffected (takeDigits digit) := by
  intro s
  cases s with
  | nil => rfl
  | cons c s =>
    by_cases hc : c = '^'
    · subst hc
      simp [powered_caret, takeDigits, hcaret, hstar]
    · rw [powered_cons hc]
      cases h : digit c with
      | none => simp [takeDigits, h, powered_cons hc]
      | some d => simp [takeDigits, h, unaffected_moreDigits hcaret hstar s]

theorem unaffected_takeSign : Unaffected takeSign := by
  intro s
  cases s with
  | nil => rfl
  | cons c s =>
    by_cases hc : c = '^'
    · subst hc
      rfl
    · rw [powered_cons hc]
      by_cases hminus : c = '-'
      · subst hminus
        rfl
      by_cases hplus : c = '+'
      · subst hplus
        rfl
      · rw [takeSign_cons hminus hplus, takeSign_cons hminus hplus, powered_cons hc]

theorem unaffected_takeExponent (hcaret : digit '^' = none) (hstar : digit '*' = none) :
    Unaffected (takeExponent digit) := by
  intro s
  cases s with
  | nil => rfl
  | cons c s =>
    by_cases hc : c = 'e' ∨ c = 'E'
    · have hpower : c ≠ '^' := by
        rintro rfl
        simp at hc
      have hdigits : takeDigits digit (takeSign (powered s)).2 =
          ((takeDigits digit (takeSign s).2).1, powered (takeDigits digit (takeSign s).2).2) := by
        rw [unaffected_takeSign s]
        exact unaffected_takeDigits hcaret hstar _
      rcases hds : takeDigits digit (takeSign s).2 with ⟨_ | ⟨d, ds⟩, tail⟩
      · rw [hds] at hdigits
        rw [powered_cons hpower, takeExponent_of_nil hc hds, takeExponent_of_nil hc hdigits,
          powered_cons hpower]
      · rw [hds] at hdigits
        rw [powered_cons hpower, takeExponent_of_cons hc hds, takeExponent_of_cons hc hdigits,
          unaffected_takeSign s]
    · rw [takeExponent_of_ne hc]
      by_cases hpower : c = '^'
      · subst hpower
        exact takeExponent_of_ne (by decide) _
      · rw [powered_cons hpower]
        exact takeExponent_of_ne hc _

theorem unaffected_takeFraction (hcaret : digit '^' = none) (hstar : digit '*' = none) :
    Unaffected (takeFraction digit) := by
  intro s
  cases s with
  | nil => rfl
  | cons c s =>
    by_cases hc : c = '.'
    · subst hc
      rw [powered_cons (by decide), takeFraction, unaffected_takeDigits hcaret hstar s]
      rfl
    · rw [takeFraction_of_ne hc]
      by_cases hpower : c = '^'
      · subst hpower
        exact takeFraction_of_ne (by decide) _
      · rw [powered_cons hpower]
        exact takeFraction_of_ne hc _

theorem takeNumber?_powered (hcaret : digit '^' = none) (hstar : digit '*' = none) (s : List Char) :
    takeNumber? digit (powered s) =
      (takeNumber? digit s).map fun x => (x.1, x.2.1, powered x.2.2) := by
  rw [takeNumber?_eq, takeNumber?_eq, unaffected_takeDigits hcaret hstar s]
  simp only [unaffected_takeFraction hcaret hstar (takeDigits digit s).2,
    unaffected_takeExponent hcaret hstar (takeFraction digit (takeDigits digit s).2).2]
  split
  · rfl
  · rfl

/-! ## Spellings -/

/-- A spelling without carets and stars begins a text or does not, whatever carets stand for. -/
theorem afterStart?_powered {a : List Char} (hcaret : '^' ∉ a) (hstar : '*' ∉ a) (s : List Char) :
    afterStart? a (powered s) = (afterStart? a s).map powered := by
  induction a generalizing s with
  | nil => rfl
  | cons b a ih =>
    obtain ⟨hbcaret, hcaret⟩ := List.ne_and_not_mem_of_not_mem_cons hcaret
    obtain ⟨hbstar, hstar⟩ := List.ne_and_not_mem_of_not_mem_cons hstar
    cases s with
    | nil => rfl
    | cons c s =>
      by_cases hc : c = '^'
      · subst hc
        rw [powered_caret, afterStart?, if_neg hbstar.symm, afterStart?, if_neg hbcaret.symm]
        rfl
      · rw [powered_cons hc, afterStart?, afterStart?]
        split
        · exact ih hcaret hstar s
        · rfl

theorem numberMayEnd_powered (s : List Char) : numberMayEnd (powered s) = numberMayEnd s := by
  have hall : ∀ w ∈ wordsAfterNumber, '^' ∉ w.toList ∧ '*' ∉ w.toList := by decide
  have hsign (c : Char) (hc : (!(isAsciiLetter c || isAsciiDigit c || c == '_' ||
      decide (128 ≤ c.toNat))) = true) (s : List Char) : numberMayEnd (c :: s) = true :=
    (congrArg (_ || ·) hc).trans (Bool.or_true _)
  cases s with
  | nil => rfl
  | cons c s =>
    by_cases hc : c = '^'
    · subst hc
      rw [powered_caret, hsign '*' rfl, hsign '^' rfl]
    · have hany : (wordsAfterNumber.any fun w => (afterStart? w.toList (powered (c :: s))).isSome) =
          wordsAfterNumber.any fun w => (afterStart? w.toList (c :: s)).isSome := by
        rw [Bool.eq_iff_iff, List.any_eq_true, List.any_eq_true]
        refine exists_congr fun w => and_congr_right fun hw => ?_
        rw [afterStart?_powered (hall w hw).1 (hall w hw).2, Option.isSome_map]
      rw [powered_cons hc] at hany ⊢
      exact congrArg (· || _) hany

/-- What was read from a text, with powers for carets in the rest. -/
def poweredRest {α : Type} (found : Option (α × List Char)) : Option (α × List Char) :=
  found.map fun x => (x.1, powered x.2)

theorem powered_ne_cons (hcaret : c ≠ '^') (hstar : c ≠ '*') (h : ∀ tail, s ≠ c :: tail) :
    ∀ tail, powered s ≠ c :: tail := by
  intro tail heq
  have hhead := (head?_powered_eq (s := s) hcaret hstar).mp (heq ▸ rfl)
  obtain ⟨tail, rfl⟩ := List.head?_eq_some_iff.mp hhead
  exact h tail rfl

theorem takeDecimal?_powered (s : List Char) :
    takeDecimal? (powered s) = poweredRest (takeDecimal? s) := by
  have hcaret : asciiDigit? '^' = none := rfl
  have hnumber := takeNumber?_powered hcaret rfl s
  cases hs : takeNumber? asciiDigit? s with
  | none =>
    rw [hs] at hnumber
    unfold takeDecimal?
    rw [hs, hnumber]
    rfl
  | some found =>
    obtain ⟨d, isWhole, rest⟩ := found
    rw [hs] at hnumber
    by_cases hletter : ∃ tail, rest = 'j' :: tail ∨ rest = 'J' :: tail
    · obtain ⟨tail, rfl | rfl⟩ := hletter
      all_goals
        unfold takeDecimal?
        simp only [hs, hnumber, Option.map_some, powered_cons (c := 'j') (by decide),
          powered_cons (c := 'J') (by decide), numberMayEnd_powered]
        split
        · rfl
        · rfl
    · have hj : ∀ tail, rest ≠ 'j' :: tail := fun tail h => hletter ⟨tail, .inl h⟩
      have hJ : ∀ tail, rest ≠ 'J' :: tail := fun tail h => hletter ⟨tail, .inr h⟩
      have hfirst : decimalToken? (powered s).head? d isWhole = decimalToken? s.head? d isWhole := by
        simp only [decimalToken?, head?_powered_eq (c := '0') (by decide) (by decide)]
      rw [takeDecimal?_of_number hs hj hJ, takeDecimal?_of_number hnumber
        (powered_ne_cons (by decide) (by decide) hj) (powered_ne_cons (by decide) (by decide) hJ),
        hfirst, numberMayEnd_powered]
      split
      · cases decimalToken? s.head? d isWhole <;> rfl
      · rfl

theorem takeBasedDigits?_powered (base : ℕ) (hcaret : baseDigit? base '^' = none)
    (hstar : baseDigit? base '*' = none) (s : List Char) :
    takeBasedDigits? base (powered s) = poweredRest (takeBasedDigits? base s) := by
  unfold takeBasedDigits?
  rw [unaffected_takeDigits hcaret hstar s]
  rcases takeDigits (baseDigit? base) s with ⟨_ | ⟨d, ds⟩, rest⟩
  · rfl
  · simp only [numberMayEnd_powered]
    split
    · rfl
    · rfl

theorem takeBased?_powered (base : ℕ) (s : List Char) :
    takeBased? base (powered s) = poweredRest (takeBased? base s) := by
  have hnone : (if base < base then some base else none) = none := if_neg (Nat.lt_irrefl base)
  have hdigits := takeBasedDigits?_powered base hnone hnone
  by_cases hlow : ∃ r, s = '_' :: r
  · obtain ⟨r, rfl⟩ := hlow
    exact hdigits r
  · have hno : ∀ r, s ≠ '_' :: r := fun r heq => hlow ⟨r, heq⟩
    rw [takeBased?_of_ne base hno,
      takeBased?_of_ne base (powered_ne_cons (by decide) (by decide) hno), hdigits]

theorem takeNumberToken?_powered (s : List Char) :
    takeNumberToken? (powered s) = poweredRest (takeNumberToken? s) := by
  obtain ⟨c, r, base, rfl, hc⟩ | hdecimal := based_or_decimal s
  · have hpower : c ≠ '^' := by
      rintro rfl
      cases hc
    rw [takeNumberToken?_of_base hc, powered_cons (by decide), powered_cons hpower,
      takeNumberToken?_of_base hc]
    exact takeBased?_powered base r
  · rw [takeNumberToken?_of_decimal hdecimal, takeNumberToken?_of_decimal]
    · exact takeDecimal?_powered s
    · intro c r heq
      match s, hdecimal with
      | [], _ => cases heq
      | [a], _ =>
        by_cases ha : a = '^'
        · subst ha
          cases heq
        · rw [powered_cons ha] at heq
          cases heq
      | a :: b :: s, hdecimal =>
        by_cases ha : a = '^'
        · subst ha
          cases heq
        · rw [powered_cons ha] at heq
          obtain ⟨rfl, htail⟩ := List.cons.inj heq
          by_cases hb : b = '^'
          · subst hb
            cases htail
            rfl
          · rw [powered_cons hb] at htail
            obtain ⟨rfl, -⟩ := List.cons.inj htail
            exact hdecimal b s rfl

/-! ## Signs -/

/-- A sign that begins with neither is read in the same way. -/
theorem takeSymbol?_powered (hcaret : c ≠ '^') (hstar : c ≠ '*') (s : List Char) :
    takeSymbol? (c :: powered s) = poweredRest (takeSymbol? (c :: s)) := by
  have hall : ∀ p ∈ signSpellings, ('^' ∉ p.1.toList ∧ '*' ∉ p.1.toList) ∨
      p.1.toList.head? = some '^' ∨ p.1.toList.head? = some '*' := by decide
  have hother (a : List Char) (s : List Char) (ha : a.head? = some '^' ∨ a.head? = some '*') :
      afterStart? a (c :: s) = none := by
    cases a with
    | nil => simp at ha
    | cons b a =>
      refine if_neg ?_
      rintro rfl
      rcases ha with ha | ha
      · exact hcaret (Option.some.inj ha)
      · exact hstar (Option.some.inj ha)
  have hspelling : ∀ p ∈ signSpellings,
      ((afterStart? p.1.toList (c :: powered s)).map fun rest => (p.2, rest)) =
        poweredRest ((afterStart? p.1.toList (c :: s)).map fun rest => (p.2, rest)) := by
    intro p hp
    rcases hall p hp with ⟨hcaret', hstar'⟩ | hhead
    · rw [← powered_cons hcaret, afterStart?_powered hcaret' hstar']
      cases afterStart? p.1.toList (c :: s) <;> rfl
    · rw [hother _ _ hhead, hother _ _ hhead]
      rfl
  have hfirst := congrArg (List.findSome? id) (List.map_congr_left hspelling)
  rw [List.findSome?_map, List.findSome?_map] at hfirst
  exact hfirst.trans List.map_findSome?.symm

theorem takeSymbol?_caret (hs : s.head? ≠ some '=') : takeSymbol? ('^' :: s) = some (.caret, s) := by
  cases s with
  | nil => rfl
  | cons c s =>
    have hc : '=' ≠ c := fun h => hs (congrArg some h.symm)
    simp [takeSymbol?, signSpellings, afterStart?, hc]

theorem takeSymbol?_power (hs : s.head? ≠ some '=') :
    takeSymbol? ('*' :: '*' :: s) = some (.power, s) := by
  cases s with
  | nil => rfl
  | cons c s =>
    have hc : '=' ≠ c := fun h => hs (congrArg some h.symm)
    simp [takeSymbol?, signSpellings, afterStart?, hc]

theorem takeSymbol?_star (hs : s.head? ≠ some '=') (hstar : s.head? ≠ some '*') :
    takeSymbol? ('*' :: s) = some (.star, s) := by
  cases s with
  | nil => rfl
  | cons c s =>
    have hc : '=' ≠ c := fun h => hs (congrArg some h.symm)
    have hc' : '*' ≠ c := fun h => hstar (congrArg some h.symm)
    simp [takeSymbol?, signSpellings, afterStart?, hc, hc']

/-- A caret is read only where the text has one. -/
theorem ne_caret_of_takeSymbol? {g : Sign} {rest : List Char}
    (h : takeSymbol? (c :: s) = some (g, rest)) (hc : c ≠ '^') : g ≠ .caret := by
  have hspelling : ∀ p ∈ signSpellings, p.2 = .caret → p.1.toList.head? = some '^' := by decide
  obtain ⟨p, hmem, rfl, hhead⟩ := exists_head_of_takeSymbol? h
  intro hcaret
  exact hc (Option.some.inj (hhead.symm.trans (hspelling p hmem hcaret)))

/-! ## Words -/

theorem takeText?_powered (s : List Char) : takeText? (powered s) = none ↔ takeText? s = none := by
  have hquoted (letters tail : List Char) :
      startsQuoted letters (powered tail) = startsQuoted letters tail := by
    have hsingle := head?_powered_eq (c := '\'') (s := tail) (by decide) (by decide)
    have hdouble := head?_powered_eq (c := '"') (s := tail) (by decide) (by decide)
    simp only [startsQuoted, beq_eq_beq.mpr hsingle, beq_eq_beq.mpr hdouble]
  rw [takeText?_eq_none, takeText?_eq_none, takeWhile_powered (by decide) (by decide),
    dropWhile_powered (by decide), hquoted]

/-- A word with a power for a caret, and the same in what follows it. -/
def poweredWord (found : Option (Token × List Char)) : Option (Token × List Char) :=
  found.map fun x => (x.1.caretAsPower, powered x.2)

theorem caretAsPower_of_ne {t : Token} (h : t ≠ .sign .caret) : t.caretAsPower = t := by
  unfold Token.caretAsPower
  split
  · exact absurd rfl h
  · rfl

theorem poweredRest_eq_poweredWord {found : Option (Token × List Char)}
    (h : ∀ t rest, found = some (t, rest) → t.caretAsPower = t) :
    poweredRest found = poweredWord found := by
  cases found with
  | none => rfl
  | some x =>
    obtain ⟨t, rest⟩ := x
    exact congrArg (fun t => some (t, powered rest)) (h t rest rfl).symm

/-- Where neither a caret nor a star begins a word, and no quoted text. -/
theorem takeToken?_powered_of_ne (hcaret : c ≠ '^') (hstar : c ≠ '*')
    (htext : takeText? (c :: s) = none) :
    takeToken? (powered (c :: s)) = poweredWord (takeToken? (c :: s)) := by
  have htext' := (takeText?_powered (c :: s)).mpr htext
  rw [powered_cons hcaret] at htext' ⊢
  cases hc : isIdentifierStart c with
  | true =>
    rw [takeToken?_of_name htext hc, takeToken?_of_name htext' hc,
      takeWhile_powered (by decide) (by decide), dropWhile_powered (by decide)]
    rfl
  | false =>
    have hnumber : startsNumber (c :: powered s) = startsNumber (c :: s) := by
      simp only [startsNumber, head?_powered (f := isAsciiDigit) rfl s]
    cases hstarts : startsNumber (c :: s) with
    | true =>
      rw [takeToken?_of_number htext hc hstarts,
        takeToken?_of_number htext' hc (hnumber.trans hstarts), ← powered_cons hcaret,
        takeNumberToken?_powered]
      refine poweredRest_eq_poweredWord fun t rest h => caretAsPower_of_ne ?_
      rintro rfl
      obtain ⟨w, hw⟩ := takeNumberToken?_read h nofun
      cases hw.number
    | false =>
      rw [takeToken?_of_sign htext hc hstarts,
        takeToken?_of_sign htext' hc (hnumber.trans hstarts), takeSymbol?_powered hcaret hstar]
      cases hsymbol : takeSymbol? (c :: s) with
      | none => rfl
      | some x =>
        have hsign : (Token.sign x.1).caretAsPower = .sign x.1 := caretAsPower_of_ne fun h =>
          ne_caret_of_takeSymbol? hsymbol hcaret (Token.sign.inj h)
        exact congrArg (fun t => some (t, powered x.2)) hsign.symm

/-- A sign that begins with a caret or a star. -/
theorem takeToken?_of_star (hc : c = '^' ∨ c = '*') (s : List Char) :
    takeToken? (c :: s) = (takeSymbol? (c :: s)).map fun x => (.sign x.1, x.2) := by
  rcases hc with rfl | rfl
  · rfl
  · rfl

/-- A caret is read as one, the double star for it as a power. -/
theorem takeToken?_powered_of_caret (s : List Char) :
    takeToken? (powered ('^' :: s)) = poweredWord (takeToken? ('^' :: s)) := by
  rw [powered_caret, takeToken?_of_star (.inl rfl), takeToken?_of_star (.inr rfl)]
  by_cases hs : s.head? = some '='
  · obtain ⟨r, rfl⟩ := List.head?_eq_some_iff.mp hs
    rfl
  · rw [takeSymbol?_caret hs, takeSymbol?_power (mt (head?_powered_eq (by decide) (by decide)).mp hs)]
    rfl

/-- A star, or several, that no caret follows. -/
theorem takeToken?_powered_of_star (hs : s.head? ≠ some '^') :
    takeToken? (powered ('*' :: s)) = poweredWord (takeToken? ('*' :: s)) := by
  have hassign (r : List Char) (hr : r.head? ≠ some '=') : (powered r).head? ≠ some '=' :=
    mt (head?_powered_eq (by decide) (by decide)).mp hr
  rw [powered_cons (by decide), takeToken?_of_star (.inr rfl), takeToken?_of_star (.inr rfl)]
  by_cases hequal : s.head? = some '='
  · obtain ⟨r, rfl⟩ := List.head?_eq_some_iff.mp hequal
    rfl
  by_cases hdouble : s.head? = some '*'
  · obtain ⟨r, rfl⟩ := List.head?_eq_some_iff.mp hdouble
    rw [powered_cons (by decide)]
    by_cases hr : r.head? = some '='
    · obtain ⟨r, rfl⟩ := List.head?_eq_some_iff.mp hr
      rfl
    · rw [takeSymbol?_power hr, takeSymbol?_power (hassign r hr)]
      rfl
  · have hdouble' : (powered s).head? ≠ some '*' := by
      cases s with
      | nil => exact nofun
      | cons c s =>
        have hc : c ≠ '^' := fun h => hs (congrArg some h)
        rw [powered_cons hc]
        exact hdouble
    rw [takeSymbol?_star hequal hdouble, takeSymbol?_star (hassign s hequal) hdouble']
    rfl

/-- A word is read in the same way, unless a quoted text begins or a star stands before a caret. -/
theorem takeToken?_powered (htext : takeText? s = none) (hstar : ∀ r, s ≠ '*' :: '^' :: r) :
    takeToken? (powered s) = poweredWord (takeToken? s) := by
  cases s with
  | nil => rfl
  | cons c s =>
    by_cases hcaret : c = '^'
    · subst hcaret
      exact takeToken?_powered_of_caret s
    by_cases hc : c = '*'
    · subst hc
      exact takeToken?_powered_of_star fun h => by
        obtain ⟨r, rfl⟩ := List.head?_eq_some_iff.mp h
        exact hstar r rfl
    · exact takeToken?_powered_of_ne hcaret hc htext

end

end QuantumGates
