-- The texts of doubles. A finite double is written in digits with a point or a power of ten, and
-- as a word such a text is a decimal number with the value of the digits.
import QuantumGates.Proofs.Expression.NumberTexts
import QuantumGates.Proofs.Number.ShortestDigits

namespace QuantumGates

/-! ## Digits -/

theorem ofDigits_map_digitOf (w : List Char) :
    ofDigits (w.map digitOf) = Nat.ofDigitChars 10 w 0 := by
  unfold ofDigits Nat.ofDigitChars digitOf
  rw [List.foldl_map]
  rfl

section

variable {w r s : List Char}

/-- Digits before something else are read up to it. -/
theorem takeDigits_append (hw : ∀ c ∈ w, isAsciiDigit c = true)
    (hr : ∀ c q, r = c :: q → isAsciiDigit c = false ∧ c ≠ '_') :
    takeDigits asciiDigit? (w ++ r) = (w.map digitOf, r) := by
  have htake : r.takeWhile isAsciiDigit = [] ∧ r.dropWhile isAsciiDigit = r := by
    cases r with
    | nil => exact ⟨rfl, rfl⟩
    | cons c q =>
      rw [List.takeWhile_cons, List.dropWhile_cons, (hr c q rfl).1]
      exact ⟨rfl, rfl⟩
  rw [takeDigits_eq]
  · rw [List.takeWhile_append_of_pos hw, List.dropWhile_append_of_pos hw, htake.1, htake.2,
      List.append_nil]
  · rw [List.dropWhile_append_of_pos hw, htake.2]
    exact fun q heq => (hr '_' q heq).2 rfl

theorem isAsciiDigit_of_mem_digitsOf {n : ℕ} {c : Char} (h : c ∈ digitsOf n) :
    isAsciiDigit c = true := Nat.isDigit_of_mem_toDigits (by decide) (by decide) h

theorem isAsciiDigit_of_mem_padded {width n : ℕ} {c : Char} (h : c ∈ padded width n) :
    isAsciiDigit c = true := by
  rcases List.mem_append.mp h with h | h
  · rw [List.eq_of_mem_replicate h]
    rfl
  · exact isAsciiDigit_of_mem_digitsOf h

theorem ofDigitChars_padded (width n : ℕ) : Nat.ofDigitChars 10 (padded width n) 0 = n := by
  unfold padded digitsOf
  rw [Nat.ofDigitChars_append, Nat.ofDigitChars_replicate_zero, Nat.mul_zero,
    Nat.ofDigitChars_ten_toDigits]

theorem padded_ne_nil (width n : ℕ) : padded width n ≠ [] := by
  intro h
  exact Nat.toDigits_ne_nil (List.append_eq_nil_iff.mp h).2

/-- A written power of ten is read as that power. -/
theorem takeExponent_exponent (l : NumberLayout) (k : ℤ) :
    takeExponent asciiDigit? (l.exponent k) = (some k, []) := by
  obtain ⟨c, ds, hds⟩ := List.exists_cons_of_ne_nil (padded_ne_nil l.exponentWidth k.natAbs)
  have hdigits : takeDigits asciiDigit? (padded l.exponentWidth k.natAbs) =
      ((c :: ds).map digitOf, []) := by
    have happend := takeDigits_append (w := padded l.exponentWidth k.natAbs) (r := [])
      (fun c hc => isAsciiDigit_of_mem_padded hc) nofun
    rw [List.append_nil] at happend
    rw [happend, hds]
  have hvalue : ofDigits ((c :: ds).map digitOf) = k.natAbs := by
    rw [← hds, ofDigits_map_digitOf, ofDigitChars_padded]
  rw [List.map_cons] at hdigits hvalue
  by_cases hk : k < 0
  · have htext : l.exponent k = 'e' :: '-' :: padded l.exponentWidth k.natAbs := by
      unfold NumberLayout.exponent
      rw [if_pos hk]
      rfl
    rw [htext, takeExponent_of_cons (s := '-' :: padded l.exponentWidth k.natAbs) (.inl rfl)
      hdigits, hvalue, takeSign, if_pos rfl]
    simp only [Prod.mk.injEq, Option.some.injEq, and_true]
    omega
  · have htext : l.exponent k = 'e' :: '+' :: padded l.exponentWidth k.natAbs := by
      unfold NumberLayout.exponent
      rw [if_neg hk]
      rfl
    rw [htext, takeExponent_of_cons (s := '+' :: padded l.exponentWidth k.natAbs) (.inl rfl)
      hdigits, hvalue, takeSign, if_neg (by simp)]
    simp only [Prod.mk.injEq, Option.some.injEq, and_true]
    omega

/-! ## Layouts -/

theorem isPlainChar_of_digit {c : Char} (h : isAsciiDigit c = true) : isPlainChar c = true := by
  have hcodes : ∀ n < 58, 48 ≤ n → isPlainChar (Char.ofNat n) = true := by decide
  rw [isAsciiDigit_eq, Bool.and_eq_true, decide_eq_true_eq, decide_eq_true_eq] at h
  have hcode := hcodes c.toNat (by omega) h.1
  rwa [Char.ofNat_toNat] at hcode

/-- What may follow the digits of a number: nothing, or a power of ten. -/
structure PowerText (e : List Char) (k : ℤ) : Prop where
  plain : IsPlainText e
  reads : ∃ power, takeExponent asciiDigit? e = (power, []) ∧ power.getD 0 = k
  ends : ∀ c q, e = c :: q → isAsciiDigit c = false ∧ c ≠ '_' ∧ c ≠ '.'

theorem powerText_nil : PowerText [] 0 := ⟨nofun, ⟨none, rfl, rfl⟩, nofun⟩

theorem powerText_exponent (l : NumberLayout) (k : ℤ) : PowerText (l.exponent k) k := by
  refine ⟨?_, ⟨some k, takeExponent_exponent l k, rfl⟩, fun c q heq => ?_⟩
  · intro c hc
    rcases List.mem_append.mp hc with h | h
    · rw [List.mem_cons, List.mem_singleton] at h
      rcases h with rfl | rfl
      · rfl
      · split <;> rfl
    · exact isPlainChar_of_digit (isAsciiDigit_of_mem_padded h)
  · obtain ⟨rfl, -⟩ := List.cons.inj heq
    exact ⟨rfl, by decide, by decide⟩

/-- Digits, a point, digits and a power of ten. -/
theorem takeNumber?_pointed {f e : List Char} {k : ℤ} (hw : ∀ c ∈ w, isAsciiDigit c = true)
    (hne : w ≠ []) (hf : ∀ c ∈ f, isAsciiDigit c = true) (he : PowerText e k) :
    takeNumber? asciiDigit? (w ++ '.' :: (f ++ e)) =
      some (⟨Nat.ofDigitChars 10 (w ++ f) 0, k - f.length⟩, false, []) := by
  obtain ⟨power, hpower, hk⟩ := he.reads
  have hwhole : takeDigits asciiDigit? (w ++ '.' :: (f ++ e)) =
      (w.map digitOf, '.' :: (f ++ e)) := by
    refine takeDigits_append hw fun c q heq => ?_
    obtain ⟨rfl, -⟩ := List.cons.inj heq
    exact ⟨rfl, by decide⟩
  have hfraction : takeDigits asciiDigit? (f ++ e) = (f.map digitOf, e) :=
    takeDigits_append hf fun c q heq => ⟨(he.ends c q heq).1, (he.ends c q heq).2.1⟩
  rw [takeNumber?_eq, hwhole]
  simp only [takeFraction, hfraction, hpower]
  rw [if_neg (by simp [hne]), hk, ← List.map_append, ofDigits_map_digitOf, List.length_map]
  rfl

/-- Digits and a power of ten. -/
theorem takeNumber?_power (l : NumberLayout) (k : ℤ) (hw : ∀ c ∈ w, isAsciiDigit c = true)
    (hne : w ≠ []) :
    takeNumber? asciiDigit? (w ++ l.exponent k) =
      some (⟨Nat.ofDigitChars 10 w 0, k⟩, false, []) := by
  have hends := (powerText_exponent l k).ends
  have hwhole : takeDigits asciiDigit? (w ++ l.exponent k) = (w.map digitOf, l.exponent k) :=
    takeDigits_append hw fun c q heq => ⟨(hends c q heq).1, (hends c q heq).2.1⟩
  have hfraction : takeFraction asciiDigit? (l.exponent k) = (([], false), l.exponent k) := rfl
  rw [takeNumber?_eq, hwhole]
  simp only [hfraction, takeExponent_exponent]
  rw [if_neg (by simp [hne]), List.append_nil, ofDigits_map_digitOf]
  simp

/-- The text is a decimal number from its first digit to its end. -/
structure DecimalText (s : List Char) (d : Decimal) : Prop where
  plain : IsPlainText s
  digit : ∃ c r, s = c :: r ∧ isAsciiDigit c = true
  reads : takeNumber? asciiDigit? s = some (d, false, [])

theorem decimalText_pointed {f e : List Char} {k : ℤ} (hw : ∀ c ∈ w, isAsciiDigit c = true)
    (hne : w ≠ []) (hf : ∀ c ∈ f, isAsciiDigit c = true) (he : PowerText e k) :
    DecimalText (w ++ '.' :: (f ++ e)) ⟨Nat.ofDigitChars 10 (w ++ f) 0, k - f.length⟩ := by
  refine ⟨?_, ?_, takeNumber?_pointed hw hne hf he⟩
  · intro c hc
    rw [List.mem_append, List.mem_cons, List.mem_append] at hc
    rcases hc with h | rfl | h | h
    · exact isPlainChar_of_digit (hw c h)
    · rfl
    · exact isPlainChar_of_digit (hf c h)
    · exact he.plain c h
  · obtain ⟨c, r, rfl⟩ := List.exists_cons_of_ne_nil hne
    exact ⟨c, _, rfl, hw c List.mem_cons_self⟩

theorem decimalText_power (l : NumberLayout) (k : ℤ) (hw : ∀ c ∈ w, isAsciiDigit c = true)
    (hne : w ≠ []) : DecimalText (w ++ l.exponent k) ⟨Nat.ofDigitChars 10 w 0, k⟩ := by
  refine ⟨?_, ?_, takeNumber?_power l k hw hne⟩
  · intro c hc
    rcases List.mem_append.mp hc with h | h
    · exact isPlainChar_of_digit (hw c h)
    · exact (powerText_exponent l k).plain c h
  · obtain ⟨c, r, rfl⟩ := List.exists_cons_of_ne_nil hne
    exact ⟨c, _, rfl, hw c List.mem_cons_self⟩

theorem isAsciiDigit_of_mem_replicate {n : ℕ} {c : Char} (h : c ∈ List.replicate n '0') :
    isAsciiDigit c = true := by
  rw [List.eq_of_mem_replicate h]
  rfl

/-- A number in full, with noughts before its digits. -/
theorem write_below_one {ds : List Char} {k : ℤ} (hds : ∀ c ∈ ds, isAsciiDigit c = true)
    (hk : k < 0) :
    ∃ d, DecimalText (['0', '.'] ++ List.replicate ((-k).toNat - 1) '0' ++ ds) d ∧
      d.value = Nat.ofDigitChars 10 ds 0 * 10 ^ (k + 1 - ds.length) := by
  have htext : ['0', '.'] ++ List.replicate ((-k).toNat - 1) '0' ++ ds =
      ['0'] ++ '.' :: ((List.replicate ((-k).toNat - 1) '0' ++ ds) ++ []) := by
    simp
  rw [htext]
  refine ⟨_, decimalText_pointed (by simp; rfl) (List.cons_ne_nil _ _) ?_ powerText_nil, ?_⟩
  · intro c hc
    rcases List.mem_append.mp hc with h | h
    · exact isAsciiDigit_of_mem_replicate h
    · exact hds c h
  · have hzeros : Nat.ofDigitChars 10 (['0'] ++ (List.replicate ((-k).toNat - 1) '0' ++ ds)) 0 =
        Nat.ofDigitChars 10 ds 0 := by
      rw [← List.replicate_one, ← List.append_assoc, List.replicate_append_replicate,
        Nat.ofDigitChars_append, Nat.ofDigitChars_replicate_zero, Nat.mul_zero]
    rw [Decimal.value, hzeros, List.length_append, List.length_replicate]
    have hpower : 0 - ((((-k).toNat - 1 + ds.length : ℕ)) : ℤ) = k + 1 - ds.length := by omega
    rw [← hpower]

/-- A whole number in full, with noughts after its digits. -/
theorem write_whole {ds : List Char} {k : ℤ} (hds : ∀ c ∈ ds, isAsciiDigit c = true)
    (hne : ds ≠ []) (hk : ¬ k < 0) (hlen : ds.length ≤ k.toNat + 1) :
    ∃ d, DecimalText (ds ++ List.replicate (k.toNat + 1 - ds.length) '0' ++
        NumberLayout.plain.wholeTail.toList) d ∧
      d.value = Nat.ofDigitChars 10 ds 0 * 10 ^ (k + 1 - ds.length) := by
  have htext : ds ++ List.replicate (k.toNat + 1 - ds.length) '0' ++
      NumberLayout.plain.wholeTail.toList =
        (ds ++ List.replicate (k.toNat + 1 - ds.length) '0') ++ '.' :: (['0'] ++ []) := rfl
  rw [htext]
  refine ⟨_, decimalText_pointed ?_ (by simp [hne]) (by simp; rfl) powerText_nil, ?_⟩
  · intro c hc
    rcases List.mem_append.mp hc with h | h
    · exact hds c h
    · exact isAsciiDigit_of_mem_replicate h
  · have hpower : k + 1 - ds.length = ((k.toNat + 1 - ds.length : ℕ) : ℤ) := by omega
    have hdigits : Nat.ofDigitChars 10
        (ds ++ List.replicate (k.toNat + 1 - ds.length) '0' ++ ['0']) 0 =
          10 * (10 ^ (k.toNat + 1 - ds.length) * Nat.ofDigitChars 10 ds 0) := by
      rw [Nat.ofDigitChars_append, Nat.ofDigitChars_append, Nat.ofDigitChars_replicate_zero]
      rfl
    rw [Decimal.value, hdigits, hpower, zpow_natCast]
    push_cast
    rw [List.length_singleton]
    norm_num
    ring

/-- A number in full, with a point between its digits. -/
theorem write_mixed {ds : List Char} {k : ℤ} (hds : ∀ c ∈ ds, isAsciiDigit c = true)
    (hne : ds ≠ []) (hk : ¬ k < 0) (hlen : ¬ ds.length ≤ k.toNat + 1) :
    ∃ d, DecimalText (ds.take (k.toNat + 1) ++ '.' :: ds.drop (k.toNat + 1)) d ∧
      d.value = Nat.ofDigitChars 10 ds 0 * 10 ^ (k + 1 - ds.length) := by
  have htext : ds.take (k.toNat + 1) ++ '.' :: ds.drop (k.toNat + 1) =
      ds.take (k.toNat + 1) ++ '.' :: (ds.drop (k.toNat + 1) ++ []) := by
    rw [List.append_nil]
  rw [htext]
  refine ⟨_, decimalText_pointed (fun c hc => hds c (List.mem_of_mem_take hc)) ?_
    (fun c hc => hds c (List.mem_of_mem_drop hc)) powerText_nil, ?_⟩
  · rw [Ne, List.take_eq_nil_iff]
    simp [hne]
  · have hpower : 0 - ((ds.length - (k.toNat + 1) : ℕ) : ℤ) = k + 1 - ds.length := by omega
    rw [Decimal.value, List.take_append_drop, List.length_drop, ← hpower]

/-- A laid out number is the number of its digits. -/
theorem decimalText_write {ds : List Char} (k : ℤ) (hds : ∀ c ∈ ds, isAsciiDigit c = true)
    (hne : ds ≠ []) :
    ∃ d, DecimalText (NumberLayout.plain.write ds k) d ∧
      d.value = Nat.ofDigitChars 10 ds 0 * 10 ^ (k + 1 - ds.length) := by
  unfold NumberLayout.write
  split
  · match ds, hne, hds with
    | [c], hne, hds =>
      refine ⟨_, decimalText_power (w := [c]) .plain k hds hne, ?_⟩
      simp [Decimal.value]
    | c :: c' :: r, hne, hds =>
      refine ⟨_, decimalText_pointed (w := [c]) (f := c' :: r) ?_ (List.cons_ne_nil c []) ?_
        (powerText_exponent .plain k), ?_⟩
      · exact fun d hd => hds d (List.mem_cons.mpr (.inl (List.mem_singleton.mp hd)))
      · exact fun d hd => hds d (List.mem_cons_of_mem c hd)
      · rw [Decimal.value]
        congr 2
        simp only [List.length_cons]
        omega
  · split
    · rename_i hk
      exact write_below_one hds hk
    · rename_i hk
      simp only
      split
      · rename_i hlen
        exact write_whole hds hne hk hlen
      · rename_i hlen
        exact write_mixed hds hne hk hlen

/-- The digits without the noughts at their end. -/
theorem exists_dropEndZeros (ds : List Char) :
    ∃ n, ds = dropEndZeros ds ++ List.replicate n '0' := by
  have hzeros : ds.reverse.takeWhile (· == '0') =
      List.replicate (ds.reverse.takeWhile (· == '0')).length '0' := by
    refine List.eq_replicate_iff.mpr ⟨rfl, fun c hc => ?_⟩
    exact beq_iff_eq.mp (List.all_eq_true.mp List.all_takeWhile c hc)
  refine ⟨(ds.reverse.takeWhile (· == '0')).length, ?_⟩
  have hsplit := List.takeWhile_append_dropWhile (p := (· == '0')) (l := ds.reverse)
  rw [hzeros] at hsplit
  have hback := congrArg List.reverse hsplit
  rw [List.reverse_append, List.reverse_replicate, List.reverse_reverse] at hback
  exact hback.symm

end

/-! ## Doubles -/

theorem floatParts_bounds (x : Float) :
    (floatParts x).1 < 2 ^ 53 ∧ -1074 ≤ (floatParts x).2 ∧ (floatParts x).2 ≤ 972 := by
  have hpow : Nat.pow 2 52 = 4503599627370496 := rfl
  unfold floatParts
  simp only [hpow]
  split
  · refine ⟨?_, ?_, ?_⟩ <;> simp only <;> omega
  · refine ⟨?_, ?_, ?_⟩ <;> simp only <;> omega

/-- The number rounds to the magnitude of a finite double. -/
def Decimal.RoundsTo (d : Decimal) (x : Float) : Prop :=
  if (floatParts x).1 = 0 then d.value = 0
  else (RoundingInterval.of (floatParts x).1 (floatParts x).2).Contains d.value

theorem low_pos {n : ℕ} (hn : 0 < n) (e : ℤ) : 0 < (RoundingInterval.of n e).low := by
  obtain ⟨scale, den, hratio, hscale, -⟩ := exists_ratioOf (e - 2)
  unfold RoundingInterval.of
  rw [hratio]
  refine Nat.mul_pos ?_ hscale
  split <;> omega

theorem RoundingInterval.Contains.ne_zero {i : RoundingInterval} {v : ℚ} (h : i.Contains v)
    (hlow : 0 < i.low) : v ≠ 0 := by
  rintro rfl
  have hlow' : (0 : ℚ) < i.low := by exact_mod_cast hlow
  unfold RoundingInterval.Contains at h
  rw [zero_mul] at h
  split at h
  · exact absurd h.1 (not_le.mpr hlow')
  · exact absurd h.1 (not_lt.mpr hlow'.le)

/-- The digits of a positive whole number, laid out without the noughts at their end. -/
theorem decimalText_dropEndZeros {digits : ℕ} (k : ℤ) (h : digits ≠ 0) :
    ∃ d, DecimalText (NumberLayout.plain.write (dropEndZeros (digitsOf digits))
        (k + (digitsOf digits).length - 1)) d ∧ d.value = digits * 10 ^ k := by
  -- the noughts at the end come back as a power of ten
  obtain ⟨m, hzeros⟩ := exists_dropEndZeros (digitsOf digits)
  have hdigits : digits = 10 ^ m * Nat.ofDigitChars 10 (dropEndZeros (digitsOf digits)) 0 := by
    have hall : Nat.ofDigitChars 10 (digitsOf digits) 0 = digits := Nat.ofDigitChars_ten_toDigits
    rw [hzeros, Nat.ofDigitChars_append, Nat.ofDigitChars_replicate_zero] at hall
    exact hall.symm
  have hlength := congrArg List.length hzeros
  rw [List.length_append, List.length_replicate] at hlength
  generalize dropEndZeros (digitsOf digits) = ds at hzeros hdigits hlength ⊢
  have hne : ds ≠ [] := by
    rintro rfl
    rw [Nat.ofDigitChars_nil, Nat.mul_zero] at hdigits
    exact h hdigits
  have hds : ∀ c ∈ ds, isAsciiDigit c = true := by
    intro c hc
    refine isAsciiDigit_of_mem_digitsOf (n := digits) ?_
    rw [hzeros]
    exact List.mem_append_left _ hc
  obtain ⟨d, htext, hvalue⟩ := decimalText_write (k + (digitsOf digits).length - 1) hds hne
  have hpower : k + (digitsOf digits).length - 1 + 1 - ds.length = m + k := by omega
  refine ⟨d, htext, ?_⟩
  rw [hvalue, hpower, zpow_add₀ (by norm_num), zpow_natCast, hdigits]
  push_cast
  ring

/-- A finite double is written as its sign and a decimal number that rounds to it. -/
theorem exists_floatText {x : Float} (hnan : x.isNaN = false) (hinf : x.isInf = false) :
    ∃ s d, floatText x = (if isNegativeFloat x then "-" else "") ++ String.ofList s ∧
      DecimalText s d ∧ d.RoundsTo x := by
  obtain ⟨hn', he, he'⟩ := floatParts_bounds x
  unfold floatText Decimal.RoundsTo
  rw [hnan, hinf]
  simp only [Bool.false_eq_true, ↓reduceIte]
  by_cases hn : (floatParts x).1 = 0
  · simp only [hn, ↓reduceIte]
    refine ⟨['0', '.', '0'], ⟨0, -1⟩, rfl, ⟨?_, ⟨'0', ['.', '0'], rfl, rfl⟩, rfl⟩, ?_⟩
    · exact isPlainText_of_all rfl
    · rw [Decimal.value, Nat.cast_zero, zero_mul]
  · simp only [hn, ↓reduceIte]
    have hpos := Nat.pos_of_ne_zero hn
    have hcontains := shortestDigits_contains hpos hn' he he'
    have hdigits : (shortestDigits (floatParts x).1 (floatParts x).2).1 ≠ 0 := by
      intro hzero
      refine hcontains.ne_zero (low_pos hpos _) ?_
      rw [hzero, Nat.cast_zero, zero_mul]
    obtain ⟨d, htext, hvalue⟩ := decimalText_dropEndZeros _ hdigits
    exact ⟨_, d, rfl, htext, hvalue ▸ hcontains⟩

end QuantumGates
