-- The fewest digits of a double read back to the same double. On the grid of seventeen digits the
-- neighbour of a double is nearer to it than any other double, so the search for the shortest
-- digits finds numbers in the interval of those that round to the double.
import Mathlib.Algebra.Order.Field.Power
import Mathlib.Algebra.Order.Field.Rat
import Mathlib.Tactic.FieldSimp
import Mathlib.Tactic.Linarith
import Mathlib.Tactic.NormNum
import Mathlib.Tactic.Positivity
import Mathlib.Tactic.Ring
import QuantumGates.Number.Reading

namespace QuantumGates

/-! ## Values -/

/-- The number that a decimal is. -/
def Decimal.value (d : Decimal) : ℚ := d.digits * 10 ^ d.exponent

/-- The number rounds to the double whose interval this is. -/
def RoundingInterval.Contains (i : RoundingInterval) (v : ℚ) : Prop :=
  if i.closed then i.low ≤ v * i.den ∧ v * i.den ≤ i.high
  else i.low < v * i.den ∧ v * i.den < i.high

/-! ## Whole numbers -/

/-- The rounded quotient is within a half of the quotient. -/
theorem divEven_near (a : ℕ) {b : ℕ} (hb : 0 < b) :
    2 * a ≤ 2 * (divEven a b * b) + b ∧ 2 * (divEven a b * b) ≤ 2 * a + b := by
  have hdiv := Nat.div_add_mod a b
  have hmod := Nat.mod_lt a hb
  rw [Nat.mul_comm] at hdiv
  unfold divEven
  simp only
  split
  · omega
  · split
    · rw [Nat.add_mul]
      omega
    · split
      · omega
      · rw [Nat.add_mul]
        omega

theorem le_of_bitLength {n : ℕ} (h : 0 < n) : 2 ^ (bitLength n - 1) ≤ n := by
  unfold bitLength
  rw [if_neg (by omega), Nat.add_sub_cancel]
  exact Nat.log2_self_le (by omega)

theorem lt_of_bitLength (n : ℕ) : n < 2 ^ bitLength n := by
  unfold bitLength
  split
  · rename_i h
    rw [h]
    exact Nat.one_pos
  · exact Nat.lt_log2_self

theorem bitLength_le {n k : ℕ} (h : n < 2 ^ k) : bitLength n ≤ k := by
  unfold bitLength
  split
  · exact Nat.zero_le k
  · rename_i hn
    exact (Nat.log2_lt hn).mpr h

theorem bitLength_pos {n : ℕ} (h : 0 < n) : 0 < bitLength n := by
  unfold bitLength
  rw [if_neg (by omega)]
  exact Nat.succ_pos _

/-! ## Powers of ten -/

theorem ten_zpow_of_nonneg {k : ℤ} (h : 0 ≤ k) : (10 : ℚ) ^ k = (10 ^ k.toNat : ℕ) := by
  obtain ⟨n, rfl⟩ := Int.eq_ofNat_of_zero_le h
  push_cast
  rfl

theorem ten_zpow_of_neg {k : ℤ} (h : ¬ 0 ≤ k) : (10 : ℚ) ^ k = 1 / (10 ^ (-k).toNat : ℕ) := by
  obtain ⟨n, hn⟩ := Int.eq_ofNat_of_zero_le (show 0 ≤ -k by omega)
  obtain rfl : k = -n := by omega
  rw [neg_neg, Int.toNat_natCast, zpow_neg, zpow_natCast, one_div]
  push_cast
  rfl

section

variable {num den : ℕ}

theorem powerOfTenLe_iff (hden : 0 < den) (k : ℤ) :
    powerOfTenLe k num den = true ↔ (10 : ℚ) ^ k ≤ num / den := by
  have hden' : (0 : ℚ) < den := by exact_mod_cast hden
  unfold powerOfTenLe
  rw [le_div_iff₀ hden']
  split
  · rename_i hk
    rw [ten_zpow_of_nonneg hk, decide_eq_true_eq, Nat.mul_comm]
    exact_mod_cast Iff.rfl
  · rename_i hk
    have hpow : (0 : ℚ) < (10 ^ (-k).toNat : ℕ) := by positivity
    rw [ten_zpow_of_neg hk, decide_eq_true_eq, one_div_mul_eq_div, div_le_iff₀ hpow]
    exact_mod_cast Iff.rfl

theorem le_climbToOrder {fuel : ℕ} {k : ℤ} (h : powerOfTenLe k num den = true) :
    powerOfTenLe (climbToOrder num den fuel k) num den = true := by
  induction fuel generalizing k with
  | zero => exact h
  | succ fuel ih =>
    rw [climbToOrder]
    split
    · rename_i hnext
      exact ih hnext
    · exact h

/-- A quotient is at least the power of two that the lengths of its terms give. -/
theorem two_zpow_le_div (hnum : 0 < num) (hden : 0 < den) :
    (2 : ℚ) ^ ((bitLength num : ℤ) - bitLength den - 1) ≤ num / den := by
  have hden' : (0 : ℚ) < den := by exact_mod_cast hden
  have hlow : (2 : ℚ) ^ ((bitLength num : ℤ) - 1) ≤ num := by
    have hpos := bitLength_pos hnum
    have hcast : ((bitLength num : ℤ) - 1) = ((bitLength num - 1 : ℕ) : ℤ) := by omega
    rw [hcast, zpow_natCast]
    exact_mod_cast le_of_bitLength hnum
  have hhigh : (den : ℚ) ≤ 2 ^ (bitLength den : ℤ) := by
    rw [zpow_natCast]
    exact_mod_cast (lt_of_bitLength den).le
  rw [le_div_iff₀ hden']
  calc (2 : ℚ) ^ ((bitLength num : ℤ) - bitLength den - 1) * den
      ≤ 2 ^ ((bitLength num : ℤ) - bitLength den - 1) * 2 ^ (bitLength den : ℤ) :=
        mul_le_mul_of_nonneg_left hhigh (by positivity)
    _ = 2 ^ ((bitLength num : ℤ) - 1) := by
      rw [← zpow_add₀ (by norm_num)]
      congr 1
      omega
    _ ≤ num := hlow

/-- Powers are compared by powers of them with exponents that are compared. -/
theorem ten_zpow_le_of_pow {s m : ℤ} {a b : ℕ} (ha : a ≠ 0) (hs : s * a ≤ m * b)
    (h : ((10 : ℚ) ^ b) ^ m ≤ (2 ^ a) ^ m) : (10 : ℚ) ^ s ≤ 2 ^ m := by
  refine (pow_le_pow_iff_left₀ (by positivity) (by positivity) ha).mp ?_
  calc ((10 : ℚ) ^ s) ^ a = 10 ^ (s * a) := by rw [zpow_mul, zpow_natCast]
    _ ≤ 10 ^ (m * b) := zpow_le_zpow_right₀ (by norm_num) hs
    _ = (10 ^ b) ^ m := by rw [mul_comm, zpow_mul, zpow_natCast]
    _ ≤ (2 ^ a) ^ m := h
    _ = (2 ^ m) ^ a := by rw [← zpow_natCast, ← zpow_mul, mul_comm, zpow_mul, zpow_natCast]

/-- The first guess of the order is not too high. -/
theorem ten_zpow_le_two_zpow {m : ℤ} (hlow : -1100 ≤ m) (hhigh : m ≤ 1100) :
    (10 : ℚ) ^ (Int.fdiv (m * 30103) 100000 - 2) ≤ 2 ^ m := by
  have hdiv : Int.fdiv (m * 30103) 100000 * 100000 ≤ m * 30103 := by
    rw [Int.fdiv_eq_ediv_of_nonneg _ (by norm_num)]
    exact Int.ediv_mul_le _ (by norm_num)
  by_cases hm : 0 ≤ m
  · -- a thousand is less than the tenth power of two
    refine ten_zpow_le_of_pow (a := 10) (b := 3) (by norm_num) (by push_cast; omega) ?_
    obtain ⟨n, rfl⟩ := Int.eq_ofNat_of_zero_le hm
    rw [zpow_natCast, zpow_natCast]
    exact pow_le_pow_left₀ (by norm_num) (by norm_num) n
  · -- and the ninety-third power of two is less than the twenty-eighth of ten
    refine ten_zpow_le_of_pow (a := 93) (b := 28) (by norm_num) (by push_cast; omega) ?_
    obtain ⟨n, hn⟩ := Int.eq_ofNat_of_zero_le (show 0 ≤ -m by omega)
    obtain rfl : m = -n := by omega
    rw [zpow_neg, zpow_neg, zpow_natCast, zpow_natCast]
    exact inv_anti₀ (by positivity) (pow_le_pow_left₀ (by norm_num) (by norm_num) n)

/-- The order of a quotient is not too high. -/
theorem ten_zpow_decimalOrder_le (hnum : 0 < num) (hden : 0 < den)
    (hlow : -1099 ≤ (bitLength num : ℤ) - bitLength den)
    (hhigh : (bitLength num : ℤ) - bitLength den ≤ 1100) :
    (10 : ℚ) ^ decimalOrder num den ≤ num / den := by
  rw [← powerOfTenLe_iff hden]
  refine le_climbToOrder ((powerOfTenLe_iff hden _).mpr ?_)
  exact (ten_zpow_le_two_zpow (by omega) (by omega)).trans (two_zpow_le_div hnum hden)

end

/-! ## The search -/

section

variable {i : RoundingInterval} {k : ℤ} {d : ℕ}

/-- A number on the grid of a power of ten as a quotient. -/
theorem exists_quotient (d : ℕ) (k : ℤ) :
    ∃ num den : ℕ, (if 0 ≤ k then (d * Nat.pow 10 k.toNat, 1) else (d, Nat.pow 10 (-k).toNat)) =
      (num, den) ∧ 0 < den ∧ (d * 10 ^ k : ℚ) = num / den := by
  split
  · rename_i hk
    refine ⟨_, _, rfl, Nat.one_pos, ?_⟩
    rw [ten_zpow_of_nonneg hk, Nat.pow_eq, Nat.cast_mul, Nat.cast_one, div_one]
  · rename_i hk
    refine ⟨_, _, rfl, Nat.pow_pos (by norm_num), ?_⟩
    rw [ten_zpow_of_neg hk, mul_one_div, Nat.pow_eq]

/-- The number `d * 10 ^ k` is in the interval if the test says so. -/
theorem RoundingInterval.holds_iff : i.holds d k = true ↔ i.Contains (d * 10 ^ k) := by
  obtain ⟨num, den, hpair, hden, hvalue⟩ := exists_quotient d k
  have hden' : (0 : ℚ) < den := by exact_mod_cast hden
  unfold RoundingInterval.holds RoundingInterval.Contains
  rw [hpair, hvalue, div_mul_eq_mul_div]
  simp only
  split
  · rw [Bool.and_eq_true, decide_eq_true_eq, decide_eq_true_eq, le_div_iff₀ hden',
      div_le_iff₀ hden']
    exact_mod_cast Iff.rfl
  · rw [Bool.and_eq_true, decide_eq_true_eq, decide_eq_true_eq, lt_div_iff₀ hden',
      div_lt_iff₀ hden']
    exact_mod_cast Iff.rfl

theorem RoundingInterval.holds_of_onGrid? (h : i.onGrid? k = some d) : i.holds d k = true := by
  unfold RoundingInterval.onGrid? at h
  simp only at h
  split at h
  · cases h
    assumption
  · split at h
    · cases h
      assumption
    · split at h
      · cases h
        assumption
      · cases h

/-- If some grid that the search tries has a number in the interval, the search finds one. -/
theorem RoundingInterval.holds_search {fuel : ℕ}
    (h : ∃ j : ℕ, j < fuel ∧ i.onGrid? (k - j) ≠ none) :
    i.holds (i.search fuel k).1 (i.search fuel k).2 = true := by
  induction fuel generalizing k with
  | zero =>
    obtain ⟨j, hj, -⟩ := h
    omega
  | succ fuel ih =>
    rw [RoundingInterval.search]
    split
    · rename_i d hd
      exact holds_of_onGrid? hd
    · rename_i hnone
      obtain ⟨j, hj, hgrid⟩ := h
      cases j with
      | zero =>
        rw [Nat.cast_zero, sub_zero] at hgrid
        exact absurd hnone hgrid
      | succ j =>
        refine ih ⟨j, by omega, ?_⟩
        rwa [sub_sub, add_comm, ← Nat.cast_succ]

end

/-! ## Seventeen digits are enough -/

/-- A quotient in units of a power of ten. -/
theorem exists_inUnits (k : ℤ) (num : ℕ) {den : ℕ} (hden : 0 < den) :
    ∃ a b : ℕ, inUnits k num den = (a, b) ∧ 0 < b ∧ (a / b * 10 ^ k : ℚ) = num / den := by
  have hden' : (den : ℚ) ≠ 0 := by exact_mod_cast hden.ne'
  unfold inUnits
  split
  · rename_i hk
    refine ⟨_, _, rfl, Nat.mul_pos hden (Nat.pow_pos (by norm_num)), ?_⟩
    rw [ten_zpow_of_nonneg hk, Nat.pow_eq]
    push_cast
    field_simp
  · rename_i hk
    refine ⟨_, _, rfl, hden, ?_⟩
    rw [ten_zpow_of_neg hk, Nat.pow_eq]
    push_cast
    field_simp

/-- The nearest number on a grid is within half a unit of the quotient. -/
theorem nearest_on_grid (k : ℤ) (num : ℕ) {den : ℕ} (hden : 0 < den) :
    |(divEven (inUnits k num den).1 (inUnits k num den).2 * 10 ^ k : ℚ) - num / den| ≤
      10 ^ k / 2 := by
  obtain ⟨a, b, hunits, hb, hvalue⟩ := exists_inUnits k num hden
  have hb' : (0 : ℚ) < b := by exact_mod_cast hb
  have hpow : (0 : ℚ) < 10 ^ k := by positivity
  obtain ⟨hlow, hhigh⟩ := divEven_near a hb
  have hnear : |(divEven a b : ℚ) - a / b| ≤ 1 / 2 := by
    have hlow' : (2 * a : ℚ) ≤ 2 * (divEven a b * b) + b := by exact_mod_cast hlow
    have hhigh' : (2 * (divEven a b * b) : ℚ) ≤ 2 * a + b := by exact_mod_cast hhigh
    have hsub : (divEven a b : ℚ) - a / b = (divEven a b * b - a) / b := by field_simp
    rw [hsub, abs_le, le_div_iff₀ hb', div_le_iff₀ hb']
    constructor
    · linarith
    · linarith
  rw [hunits, ← hvalue, ← sub_mul, abs_mul, abs_of_pos hpow]
  calc |(divEven a b : ℚ) - a / b| * 10 ^ k ≤ 1 / 2 * 10 ^ k := by gcongr
    _ = 10 ^ k / 2 := by ring

/-! ## The interval of a double -/

section

variable {n : ℕ} {e : ℤ}

/-- A power of two as a quotient. -/
theorem exists_ratioOf (k : ℤ) :
    ∃ scale den : ℕ, ratioOf 1 k = (scale, den) ∧ 0 < scale ∧ 0 < den ∧
      (k < 0 → scale = 1 ∧ den = 2 ^ (-k).toNat) ∧ (0 ≤ k → scale = 2 ^ k.toNat ∧ den = 1) := by
  unfold ratioOf
  split
  · rename_i hk
    refine ⟨_, _, rfl, Nat.mul_pos Nat.one_pos (Nat.pow_pos (by norm_num)), Nat.one_pos,
      fun h => absurd hk (by omega), fun _ => ⟨?_, rfl⟩⟩
    rw [Nat.one_mul, Nat.pow_eq]
  · rename_i hk
    exact ⟨_, _, rfl, Nat.one_pos, Nat.pow_pos (by norm_num), fun _ => ⟨rfl, rfl⟩,
      fun h => absurd h hk⟩

/-- The lengths of the terms of a double are those that the order is computed for. -/
theorem bitLength_interval {scale den : ℕ} (hn : 0 < n) (hn' : n < 2 ^ 53) (he : -1074 ≤ e)
    (he' : e ≤ 972) (hneg : e - 2 < 0 → scale = 1 ∧ den = 2 ^ (-(e - 2)).toNat)
    (hpos : 0 ≤ e - 2 → scale = 2 ^ (e - 2).toNat ∧ den = 1) :
    -1099 ≤ (bitLength (4 * n * scale) : ℤ) - bitLength den ∧
      (bitLength (4 * n * scale) : ℤ) - bitLength den ≤ 1100 := by
  by_cases h : 0 ≤ e - 2
  · obtain ⟨rfl, rfl⟩ := hpos h
    have hlen : bitLength (4 * n * 2 ^ (e - 2).toNat) ≤ 55 + (e - 2).toNat := by
      refine bitLength_le ?_
      rw [Nat.pow_add]
      exact Nat.mul_lt_mul_of_pos_right (by omega) (Nat.pow_pos (by norm_num))
    have hone : bitLength 1 = 1 := rfl
    omega
  · obtain ⟨rfl, rfl⟩ := hneg (by omega)
    have hlen : bitLength (4 * n * 1) ≤ 55 := bitLength_le (by omega)
    have hden : bitLength (2 ^ (-(e - 2)).toNat) ≤ (-(e - 2)).toNat + 1 :=
      bitLength_le (Nat.pow_lt_pow_right (by norm_num) (Nat.lt_succ_self _))
    omega

/-- A number within half a unit of the seventeenth digit of a double rounds to the double. -/
theorem contains_of_near {scale den below : ℕ} (closed : Bool) {v : ℚ} (hden : 0 < den)
    (hscale : 0 < scale) (hbelow : below ≤ 4 * n) (hfine : 2 * n < below * 10 ^ 16)
    (hfine' : 2 * n < 2 * 10 ^ 16)
    (h : |v - (4 * n * scale : ℕ) / den| ≤ ((4 * n * scale : ℕ) / den : ℚ) / 10 ^ 16 / 2) :
    RoundingInterval.Contains
      ⟨(4 * n - below) * scale, 4 * n * scale, (4 * n + 2) * scale, den, closed⟩ v := by
  have hden' : (0 : ℚ) < den := by exact_mod_cast hden
  have hscale' : (0 : ℚ) < scale := by exact_mod_cast hscale
  have hfine₁ : (2 * n : ℚ) < below * 10 ^ 16 := by exact_mod_cast hfine
  have hfine₂ : (2 * n : ℚ) < 2 * 10 ^ 16 := by exact_mod_cast hfine'
  have hnear : |v * den - 4 * n * scale| ≤ 2 * n * scale / 10 ^ 16 := by
    have hsub : v * den - 4 * n * scale = (v - (4 * n * scale : ℕ) / den) * den := by
      push_cast
      field_simp
    rw [hsub, abs_mul, abs_of_pos hden']
    calc |v - (4 * n * scale : ℕ) / den| * den
        ≤ ((4 * n * scale : ℕ) / den : ℚ) / 10 ^ 16 / 2 * den := by gcongr
      _ = 2 * n * scale / 10 ^ 16 := by
        push_cast
        field_simp
        ring
  have hlow : 2 * n * scale / 10 ^ 16 < below * (scale : ℚ) := by
    rw [div_lt_iff₀ (by positivity)]
    nlinarith
  have hhigh : 2 * n * scale / 10 ^ 16 < 2 * (scale : ℚ) := by
    rw [div_lt_iff₀ (by positivity)]
    nlinarith
  obtain ⟨habove, hbelow'⟩ := abs_le.mp hnear
  have hstrict : ((4 * n - below) * scale : ℚ) < v * den ∧ v * den < (4 * n + 2) * scale := by
    constructor
    · linarith
    · linarith
  unfold RoundingInterval.Contains
  push_cast [Nat.cast_sub hbelow]
  split
  · exact ⟨hstrict.1.le, hstrict.2.le⟩
  · exact hstrict

/-- The fewest digits of a double read back to the double. -/
theorem shortestDigits_contains (hn : 0 < n) (hn' : n < 2 ^ 53) (he : -1074 ≤ e) (he' : e ≤ 972) :
    (RoundingInterval.of n e).Contains
      ((shortestDigits n e).1 * 10 ^ (shortestDigits n e).2) := by
  have hfine' : 2 * n < 2 * 10 ^ 16 := by omega
  obtain ⟨scale, den, hratio, hscale, hden, hneg, hpos⟩ := exists_ratioOf (e - 2)
  obtain ⟨below, hbelow, hfine, hof⟩ : ∃ below, below ≤ 4 * n ∧ 2 * n < below * 10 ^ 16 ∧
      RoundingInterval.of n e = ⟨(4 * n - below) * scale, 4 * n * scale, (4 * n + 2) * scale, den,
        n % 2 == 0⟩ := by
    unfold RoundingInterval.of
    rw [hratio]
    refine ⟨_, ?_, ?_, rfl⟩
    · split
      · omega
      · omega
    · split
      · rename_i h
        have h52 : Nat.pow 2 52 = 4503599627370496 := rfl
        omega
      · omega
  obtain ⟨hlow, hhigh⟩ := bitLength_interval hn hn' he he' hneg hpos
  have hvalue : 0 < 4 * n * scale := Nat.mul_pos (by omega) hscale
  have horder := ten_zpow_decimalOrder_le hvalue hden hlow hhigh
  rw [← RoundingInterval.holds_iff]
  unfold shortestDigits
  rw [hof]
  refine RoundingInterval.holds_search ⟨16, by norm_num, ?_⟩
  have hhalf : ((10 : ℚ) ^ (decimalOrder (4 * n * scale) den - 16)) / 2 ≤
      ((4 * n * scale : ℕ) / den : ℚ) / 10 ^ 16 / 2 := by
    have hten : (10 : ℚ) ^ (16 : ℤ) = 10 ^ 16 := by norm_num
    rw [zpow_sub₀ (by norm_num), hten]
    gcongr
  have hnear := (nearest_on_grid (decimalOrder (4 * n * scale) den - 16) (4 * n * scale) hden).trans
    hhalf
  have hcontains := contains_of_near (n % 2 == 0) hden hscale hbelow hfine hfine' hnear
  have hholds := RoundingInterval.holds_iff.mpr hcontains
  unfold RoundingInterval.onGrid?
  simp only [Nat.cast_ofNat, hholds, ↓reduceIte]
  exact Option.some_ne_none _

end

end QuantumGates
