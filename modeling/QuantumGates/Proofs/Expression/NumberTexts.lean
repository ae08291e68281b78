-- Texts that are numbers. A text of the shape of a number without a sign is one word of a number:
-- its digits, its point and its power of ten are read up to its end.
import Mathlib.Data.List.TakeDrop
import QuantumGates.Param
import QuantumGates.Proofs.Expression.Texts

namespace QuantumGates

/-! ## Runs of digits -/

/-- The value of a digit of ASCII. -/
def digitOf (c : Char) : ℕ := c.toNat - 48

theorem isAsciiDigit_eq (c : Char) :
    isAsciiDigit c = (decide (48 ≤ c.toNat) && decide (c.toNat ≤ 57)) := rfl

theorem asciiDigit?_of_digit {c : Char} (h : isAsciiDigit c = true) :
    asciiDigit? c = some (digitOf c) := if_pos h

theorem asciiDigit?_of_not_digit {c : Char} (h : isAsciiDigit c = false) : asciiDigit? c = none :=
  if_neg (by rw [h]; simp)

section

variable {s : List Char}

theorem moreDigits_eq (h : ∀ r, s.dropWhile isAsciiDigit ≠ '_' :: r) :
    moreDigits asciiDigit? s =
      ((s.takeWhile isAsciiDigit).map digitOf, s.dropWhile isAsciiDigit) := by
  induction s with
  | nil => rfl
  | cons c s ih =>
    rw [List.dropWhile_cons] at h ⊢
    rw [List.takeWhile_cons]
    cases hc : isAsciiDigit c with
    | true =>
      rw [hc] at h
      rw [moreDigits_cons_some (asciiDigit?_of_digit hc), ih h]
      rfl
    | false =>
      rw [hc] at h
      refine moreDigits_cons_none (asciiDigit?_of_not_digit hc) ?_ s
      rintro rfl
      exact h s rfl

/-- A run of digits that no low line follows is read up to its end. -/
theorem takeDigits_eq (h : ∀ r, s.dropWhile isAsciiDigit ≠ '_' :: r) :
    takeDigits asciiDigit? s =
      ((s.takeWhile isAsciiDigit).map digitOf, s.dropWhile isAsciiDigit) := by
  cases s with
  | nil => rfl
  | cons c s =>
    rw [List.dropWhile_cons] at h ⊢
    rw [List.takeWhile_cons]
    cases hc : isAsciiDigit c with
    | true =>
      rw [hc] at h
      simp only [takeDigits, asciiDigit?_of_digit hc, moreDigits_eq h]
      rfl
    | false =>
      simp only [takeDigits, asciiDigit?_of_not_digit hc]
      rfl

/-- Among the plain characters the digits are those of ASCII. -/
theorem isSome_digitValue? {c : Char} (hc : isPlainChar c = true) :
    (digitValue? c).isSome = isAsciiDigit c := by
  have hcodes : ∀ n < 127,
      (digitZeros.find? fun z => decide (z ≤ n) && decide (n < z + 10)).isSome =
        (decide (48 ≤ n) && decide (n ≤ 57)) := by
    decide +kernel
  unfold isPlainChar at hc
  simp only [Bool.and_eq_true, decide_eq_true_eq] at hc
  unfold digitValue?
  rw [Option.isSome_map, hcodes c.toNat (by omega), isAsciiDigit_eq]

theorem spanDigits_of_plain (hs : IsPlainText s) :
    spanDigits s = (s.takeWhile isAsciiDigit, s.dropWhile isAsciiDigit) := by
  unfold spanDigits
  rw [List.span_eq_takeWhile_dropWhile]
  induction s with
  | nil => rfl
  | cons c s ih =>
    have heq := ih hs.tail
    simp only [Prod.mk.injEq] at heq
    simp only [List.takeWhile_cons, List.dropWhile_cons,
      isSome_digitValue? (hs c List.mem_cons_self), heq.1, heq.2]

/-! ## Whole numbers, fractions and powers of ten -/

theorem isPlainText_dropWhile (p : Char → Bool) (hs : IsPlainText s) :
    IsPlainText (s.dropWhile p) := fun c hc => hs c ((List.dropWhile_sublist p).mem hc)

theorem isPlainText_takeSign (hs : IsPlainText s) : IsPlainText (takeSign s).2 := by
  obtain ⟨w, hw⟩ := scanned_takeSign s
  rw [hw.split] at hs
  exact hs.right

/-- A power of ten is read up to its end. -/
theorem takeExponent_of_isPowerOfTen (hs : IsPlainText s) (h : isPowerOfTen s = true) :
    (takeExponent asciiDigit? s).2 = [] := by
  cases s with
  | nil => rfl
  | cons c s =>
    unfold isPowerOfTen at h
    simp only [spanDigits_of_plain (isPlainText_takeSign hs.tail), Bool.and_eq_true,
      Bool.or_eq_true, beq_iff_eq, Bool.not_eq_true', List.isEmpty_iff] at h
    obtain ⟨⟨hc, hne⟩, hnil⟩ := h
    have hdigits := takeDigits_eq (s := (takeSign s).2) (by rw [hnil]; simp)
    cases hw : (takeSign s).2.takeWhile isAsciiDigit with
    | nil =>
      rw [hw] at hne
      cases hne
    | cons d w =>
      rw [hw, hnil, List.map_cons] at hdigits
      rw [takeExponent_of_cons hc hdigits]

/-- A power of ten begins with its letter, if there is one. -/
theorem head_of_isPowerOfTen {c : Char} (h : isPowerOfTen (c :: s) = true) : c = 'e' ∨ c = 'E' := by
  unfold isPowerOfTen at h
  simp only [Bool.and_eq_true, Bool.or_eq_true, beq_iff_eq] at h
  exact h.1.1

/-- Digits with a point somewhere, or digits alone, and a power of ten. -/
theorem isNumberText_cases (hs : IsPlainText s) (h : isNumberText s = true) :
    (∃ tail, s.dropWhile isAsciiDigit = '.' :: tail ∧
      (s.takeWhile isAsciiDigit ≠ [] ∨ tail.takeWhile isAsciiDigit ≠ []) ∧
        isPowerOfTen (tail.dropWhile isAsciiDigit) = true) ∨
      s.takeWhile isAsciiDigit ≠ [] ∧ isPowerOfTen (s.dropWhile isAsciiDigit) = true := by
  unfold isNumberText at h
  rw [spanDigits_of_plain hs] at h
  have hrest := isPlainText_dropWhile isAsciiDigit hs
  simp only at h
  split at h
  · rename_i tail htail
    rw [htail] at hrest
    rw [spanDigits_of_plain hrest.tail] at h
    left
    refine ⟨tail, htail, ?_⟩
    simpa using h
  · right
    simpa using h

/-- A text of the shape of a number begins with a digit, or with a point before a digit. -/
theorem startsNumber_of_isNumberText (hs : IsPlainText s) (h : isNumberText s = true) :
    startsNumber s = true := by
  have hdigit : ∀ {s : List Char}, s.takeWhile isAsciiDigit ≠ [] →
      ∃ c r, s = c :: r ∧ isAsciiDigit c = true := by
    intro s hne
    cases s with
    | nil => exact absurd rfl hne
    | cons c r =>
      refine ⟨c, r, rfl, ?_⟩
      by_contra hc
      exact hne (by rw [List.takeWhile_cons, if_neg hc])
  have hwhole : s.takeWhile isAsciiDigit ≠ [] → startsNumber s = true := by
    intro hne
    obtain ⟨c, r, rfl, hc⟩ := hdigit hne
    rw [startsNumber, hc]
    rfl
  rcases isNumberText_cases hs h with ⟨tail, htail, hne | hne, -⟩ | ⟨hne, -⟩
  · exact hwhole hne
  · obtain ⟨d, r, rfl, hd⟩ := hdigit hne
    by_cases hnil : s.takeWhile isAsciiDigit = []
    · have hsplit := List.takeWhile_append_dropWhile (p := isAsciiDigit) (l := s)
      rw [hnil, htail, List.nil_append] at hsplit
      rw [← hsplit, startsNumber]
      simp [hd]
    · exact hwhole hnil
  · exact hwhole hne

/-- A text of the shape of a number is read up to its end. -/
theorem takeNumber?_of_isNumberText (hs : IsPlainText s) (h : isNumberText s = true) :
    ∃ d isWhole, takeNumber? asciiDigit? s = some (d, isWhole, []) := by
  have hpower : ∀ {r c q}, isPowerOfTen r = true → r = c :: q → c ≠ '_' ∧ c ≠ '.' := by
    rintro r c q hr rfl
    rcases head_of_isPowerOfTen hr with rfl | rfl
    · exact ⟨by decide, by decide⟩
    · exact ⟨by decide, by decide⟩
  have hrest := isPlainText_dropWhile isAsciiDigit hs
  rw [takeNumber?_eq]
  rcases isNumberText_cases hs h with ⟨tail, htail, hne, hten⟩ | ⟨hne, hten⟩
  · rw [htail] at hrest
    have hfraction := takeDigits_eq (s := tail) fun r heq => (hpower hten heq).1 rfl
    rw [takeDigits_eq (by rw [htail]; simp), htail]
    simp only [takeFraction, hfraction]
    rw [takeExponent_of_isPowerOfTen (isPlainText_dropWhile isAsciiDigit hrest.tail) hten, if_neg]
    · exact ⟨_, _, rfl⟩
    · simpa [Decidable.imp_iff_not_or] using hne
  · rw [takeDigits_eq fun r heq => (hpower hten heq).1 rfl]
    have hfraction : takeFraction asciiDigit? (s.dropWhile isAsciiDigit) =
        (([], false), s.dropWhile isAsciiDigit) := by
      cases hdrop : s.dropWhile isAsciiDigit with
      | nil => rfl
      | cons c q => exact takeFraction_of_ne (hpower hten hdrop).2 q
    simp only [hfraction]
    rw [takeExponent_of_isPowerOfTen hrest hten, if_neg]
    · exact ⟨_, _, rfl⟩
    · simpa using hne

theorem isIdentifierStart_of_startsNumber {c : Char} (h : startsNumber (c :: s) = true) :
    isIdentifierStart c = false := by
  have hcodes : ∀ n < 58, 48 ≤ n → isIdentifierStart (Char.ofNat n) = false := by decide
  unfold startsNumber at h
  rw [Bool.or_eq_true, Bool.and_eq_true, beq_iff_eq] at h
  rcases h with hdigit | ⟨rfl, -⟩
  · rw [isAsciiDigit_eq, Bool.and_eq_true, decide_eq_true_eq, decide_eq_true_eq] at hdigit
    have hcode := hcodes c.toNat (by omega) hdigit.1
    rwa [Char.ofNat_toNat] at hcode
  · decide

/-- A number that is read up to its end has no letter of a base. -/
theorem baseOf?_of_takeNumber? {c : Char} {d : Decimal} {isWhole : Bool}
    (h : takeNumber? asciiDigit? ('0' :: c :: s) = some (d, isWhole, [])) : baseOf? c = none := by
  have hno : ¬ (c = 'x' ∨ c = 'X' ∨ c = 'o' ∨ c = 'O' ∨ c = 'b' ∨ c = 'B') := by
    intro hc
    obtain ⟨hdigit, hlow, hpoint, hten⟩ :
        isAsciiDigit c = false ∧ c ≠ '_' ∧ c ≠ '.' ∧ ¬ (c = 'e' ∨ c = 'E') := by
      rcases hc with rfl | rfl | rfl | rfl | rfl | rfl <;> decide
    have hdrop : ('0' :: c :: s).dropWhile isAsciiDigit = c :: s := by
      rw [List.dropWhile_cons, if_pos (by decide), List.dropWhile_cons, hdigit, if_neg (by simp)]
    have hdigits := takeDigits_eq (s := '0' :: c :: s) (by rw [hdrop]; simp [hlow])
    rw [hdrop] at hdigits
    rw [takeNumber?_eq, hdigits] at h
    simp only [takeFraction_of_ne hpoint, takeExponent_of_ne hten] at h
    split at h
    · cases h
    · cases h
  unfold baseOf?
  rw [if_neg (by tauto), if_neg (by tauto), if_neg (by tauto)]

/-- A text of the shape of a number is a single word, a number. -/
theorem eq_nil_of_isNumberText {t : Token} {r : List Char} (hs : IsPlainText s)
    (h : isNumberText s = true) (hword : takeToken? s = some (t, r)) (ht : t.isPlain = true) :
    t.isNumber = true ∧ r = [] := by
  have hstart := startsNumber_of_isNumberText hs h
  cases s with
  | nil => cases hstart
  | cons c s =>
    rw [takeToken?_of_number (takeText?_of_plain hword ht)
      (isIdentifierStart_of_startsNumber hstart) hstart] at hword
    have himaginary : t ≠ .imaginary := by
      rintro rfl
      cases ht
    obtain ⟨w, hw⟩ := takeNumberToken?_read hword himaginary
    refine ⟨hw.number, ?_⟩
    obtain ⟨d, isWhole, hnumber⟩ := takeNumber?_of_isNumberText hs h
    rw [takeNumberToken?_of_decimal] at hword
    · obtain ⟨d', isWhole', hnumber', -⟩ := takeDecimal?_eq_some hword himaginary
      rw [hnumber] at hnumber'
      cases hnumber'
      rfl
    · intro c' r' heq
      rw [heq] at hnumber
      exact baseOf?_of_takeNumber? hnumber

end

end QuantumGates
