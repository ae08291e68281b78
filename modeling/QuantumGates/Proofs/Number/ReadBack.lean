-- Doubles as numbers and back. The normal form of a number is the number itself with other parts,
-- so no number has two of them. A finite double is read without loss, and the double nearest to
-- what was read is the same double again; only the minus of nought is lost.
import Mathlib.Data.Nat.Factorization.Basic
import QuantumGates.Proofs.Number.DoubleValue
import QuantumGates.Proofs.Number.ShortestDigits

namespace QuantumGates

/-! ## Normal form -/

/-- One less than a number changes its last one and the noughts after it. -/
theorem and_pred_of_odd_multiple (s k : ℕ) :
    (2 ^ (s + 1) * k + 2 ^ s) &&& (2 ^ (s + 1) * k + 2 ^ s - 1) = 2 ^ (s + 1) * k := by
  have hpos := Nat.two_pow_pos s
  have hlt : 2 ^ s < 2 ^ (s + 1) := Nat.pow_lt_pow_right Nat.one_lt_two s.lt_succ_self
  have hpred : 2 ^ (s + 1) * k + 2 ^ s - 1 = 2 ^ (s + 1) * k + (2 ^ s - 1) := by omega
  rw [hpred]
  refine Nat.eq_of_testBit_eq fun i => ?_
  rw [Nat.testBit_and, Nat.testBit_two_pow_mul_add _ hlt, Nat.testBit_two_pow_mul_add _ (by omega),
    Nat.testBit_two_pow_mul]
  by_cases hi : i < s + 1
  · rw [if_pos hi, if_pos hi, Nat.testBit_two_pow, Nat.testBit_two_pow_sub_one]
    have hnot : ¬ i ≥ s + 1 := by omega
    by_cases hs : s = i
    · simp [hs]
    · simp [hs, hnot]
  · rw [if_neg hi, if_neg hi, Bool.and_self]
    simp [not_lt.mp hi]

theorem trailingZeros_eq (s k : ℕ) : trailingZeros (2 ^ (s + 1) * k + 2 ^ s) = s := by
  unfold trailingZeros
  rw [and_pred_of_odd_multiple, Nat.add_sub_cancel_left, Nat.log2_two_pow]

/-- As many noughts as a number ends with, so often it can be halved. -/
theorem two_pow_trailingZeros_dvd (n : ℕ) : 2 ^ trailingZeros n ∣ n := by
  by_cases hn : n = 0
  · rw [hn]
    exact dvd_zero _
  · obtain ⟨s, m, ⟨k, rfl⟩, rfl⟩ := Nat.exists_eq_two_pow_mul_odd hn
    have hsplit : 2 ^ s * (2 * k + 1) = 2 ^ (s + 1) * k + 2 ^ s := by ring
    rw [hsplit, trailingZeros_eq, ← hsplit]
    exact dvd_mul_right _ _

namespace BigFloat

/-- The normal form has a smaller mantissa and a larger exponent by the same power of two. -/
theorem exists_normal {x : BigFloat} (hx : x.mantissa ≠ 0) :
    ∃ s : ℕ, x.mantissa = x.normal.mantissa * 2 ^ s ∧ x.normal.exponent = x.exponent + s := by
  have hdvd : (2 ^ trailingZeros x.mantissa.natAbs : ℤ) ∣ x.mantissa := by
    rw [Int.dvd_natAbs.symm]
    exact_mod_cast two_pow_trailingZeros_dvd x.mantissa.natAbs
  refine ⟨trailingZeros x.mantissa.natAbs, ?_, ?_⟩
  · unfold normal
    rw [if_neg hx]
    have hpow : ((Nat.pow 2 (trailingZeros x.mantissa.natAbs) : ℕ) : ℤ) =
        2 ^ trailingZeros x.mantissa.natAbs := by
      show ((2 ^ trailingZeros x.mantissa.natAbs : ℕ) : ℤ) = _
      push_cast
      rfl
    simp only [hpow]
    exact (Int.ediv_mul_cancel hdvd).symm
  · unfold normal
    rw [if_neg hx]

theorem normal_eq_zero {x : BigFloat} (hx : x.mantissa = 0) : x.normal = zero := by
  unfold normal
  rw [if_pos hx]

theorem mantissa_normal_eq_zero_iff (x : BigFloat) : x.normal.mantissa = 0 ↔ x.mantissa = 0 := by
  by_cases hx : x.mantissa = 0
  · rw [normal_eq_zero hx]
    exact iff_of_true rfl hx
  · obtain ⟨s, hmantissa, -⟩ := exists_normal hx
    refine iff_of_false (fun h => hx ?_) hx
    rw [hmantissa, h, zero_mul]

/-- Different whole numbers have different normal forms. -/
theorem normal_ofInt_inj {m n : ℤ} : (ofInt m).normal = (ofInt n).normal ↔ m = n := by
  refine ⟨fun h => ?_, fun h => by rw [h]⟩
  by_cases hm : m = 0
  · have hzero := (mantissa_normal_eq_zero_iff (ofInt m)).mpr hm
    rw [h, mantissa_normal_eq_zero_iff] at hzero
    exact hm.trans hzero.symm
  · have hn : n ≠ 0 := by
      intro hn
      have hzero := (mantissa_normal_eq_zero_iff (ofInt n)).mpr hn
      rw [← h, mantissa_normal_eq_zero_iff] at hzero
      exact hm hzero
    obtain ⟨s, hms, hes⟩ := exists_normal (x := ofInt m) hm
    obtain ⟨t, hnt, het⟩ := exists_normal (x := ofInt n) hn
    have hst : s = t := by
      rw [h, het] at hes
      have hadd : (0 : ℤ) + t = 0 + s := hes
      omega
    calc m = (ofInt m).normal.mantissa * 2 ^ s := hms
      _ = (ofInt n).normal.mantissa * 2 ^ t := by rw [h, hst]
      _ = n := hnt.symm

/-- A number with few digits is not changed by rounding. -/
theorem round_eq_normal {p : ℕ} {x : BigFloat} (h : bitLength x.mantissa.natAbs ≤ p) :
    x.round p = x.normal := by
  unfold round
  simp only
  rw [if_pos (Nat.sub_eq_zero_of_le h)]

end BigFloat

theorem bitLength_mul_two_pow {n : ℕ} (h : 0 < n) (s : ℕ) :
    bitLength (n * 2 ^ s) = bitLength n + s := by
  have hpos : 0 < n * 2 ^ s := Nat.mul_pos h (Nat.two_pow_pos s)
  have hlog : (n * 2 ^ s).log2 = n.log2 + s := by
    rw [Nat.log2_eq_iff hpos.ne', pow_add, add_right_comm, pow_add]
    exact ⟨Nat.mul_le_mul_right _ (Nat.log2_self_le h.ne'),
      Nat.mul_lt_mul_of_pos_right Nat.lt_log2_self (Nat.two_pow_pos s)⟩
  unfold bitLength
  rw [if_neg hpos.ne', if_neg h.ne', hlog, Nat.add_right_comm]

/-! ## Doubles -/

open Float.Model Float.Model.UnpackedFloat

namespace Double

variable {x : Float}

/-- The fields of a double make up its bits. -/
theorem packComponents_fields (x : Float) :
    packComponents Format.binary64 (signOf x) (exponentField x) (fractionField x) = bits x := by
  have hsign : (signOf x).toBitVec = signField x := by
    unfold signOf Sign.ofBitVec
    rcases BitVec.eq_zero_or_eq_one (signField x) with hzero | hone
    · rw [hzero]
      rfl
    · rw [hone]
      rfl
  have hbits : (bits x).toNat = x.toBits.toNat := rfl
  have hlt : x.toBits.toNat < 2 ^ 64 := x.toBits.toBitVec.isLt
  unfold packComponents
  rw [hsign]
  refine BitVec.eq_of_toNat_eq ?_
  rw [hbits, BitVec.toNat_append, BitVec.toNat_append,
    ← Nat.shiftLeft_add_eq_or_of_lt (exponentField x).isLt,
    ← Nat.shiftLeft_add_eq_or_of_lt (fractionField x).isLt, Nat.shiftLeft_eq, Nat.shiftLeft_eq,
    toNat_signField, toNat_exponentField, toNat_fractionField]
  show (x.toBits.toNat / 2 ^ 63 * 2 ^ 11 + x.toBits.toNat / 2 ^ 52 % 2048) * 2 ^ 52 +
    x.toBits.toNat % 2 ^ 52 = _
  omega

/-- A finite double is made again from its bits. -/
theorem ofBits_toBits (h : x.isFinite = true) : Float.ofBits x.toBits = x := by
  have hpack : bits (Float.ofBits x.toBits) =
      UnpackedFloat.pack Format.binary64 x.toModel.unpack := rfl
  have hbits : bits (Float.ofBits x.toBits) = bits x := by
    rw [hpack, ← packComponents_fields x]
    cases unpackedFinite h with
    | nought hexponent hfraction hx =>
      rw [hx, hexponent, hfraction]
      rfl
    | finite hpos hlast hx =>
      rw [hx]
      exact pack_floatParts hlast hpos (signOf x)
  exact eq_of_toBits_eq (UInt64.toBitVec_inj.mp hbits)

/-- The digits of a finite double, and the exponent that belongs to them. -/
theorem floatParts_bounds (h : x.isFinite = true) :
    (floatParts x).1 < 2 ^ 53 ∧ (floatParts x).2 ≤ 971 ∧
      (2 ^ 52 ≤ (floatParts x).1 ∧ -1074 ≤ (floatParts x).2 ∨ (floatParts x).2 = -1074) := by
  have hlast := (isFinite_iff x).mp h
  have hexponent := (exponentField x).isLt
  have hfraction := (fractionField x).isLt
  rw [Ne, ← BitVec.toNat_inj] at hlast
  have hmost : (exponentField x).toNat ≠ 2047 := hlast
  rw [floatParts_eq]
  split
  · exact ⟨by omega, by omega, .inr rfl⟩
  · rename_i hnormal
    rw [← BitVec.toNat_inj] at hnormal
    have hleast : (exponentField x).toNat ≠ 0 := hnormal
    exact ⟨by omega, by omega, .inl ⟨by omega, by omega⟩⟩

/-- The bits of a double without its sign, from its magnitude. -/
theorem toNat_mod_eq (x : Float) :
    (((floatParts x).2 + 1074).toNat * 2 ^ 52 + (floatParts x).1 : ℕ) =
      x.toBits.toNat % 2 ^ 63 := by
  have hlt : x.toBits.toNat < 2 ^ 64 := x.toBits.toBitVec.isLt
  rw [floatParts_eq]
  split
  · rename_i hzero
    rw [exponentField_eq_zero_iff] at hzero
    rw [toNat_fractionField]
    show (0 : ℕ) * 2 ^ 52 + _ = _
    omega
  · rename_i hnormal
    rw [exponentField_eq_zero_iff] at hnormal
    simp only [toNat_fractionField, toNat_exponentField]
    omega

/-- A finite double that is not nought has digits. -/
theorem floatParts_pos_of_ne_zero (h : x.isFinite = true) (hx : ¬ (x == 0.0) = true) :
    0 < (floatParts x).1 := by
  cases unpackedFinite h with
  | nought hexponent hfraction hunpack =>
    rw [beq_eq, unpack_zero, hunpack] at hx
    exact absurd rfl hx
  | finite hpos => exact hpos

end Double

namespace BigFloat

variable {x : Float}

/-- Whatever power of two the digits of a double are divided by, its bits are the same. -/
theorem magnitudeBits_eq (h : x.isFinite = true) {n s : ℕ} {e : ℤ} (hn : 0 < n)
    (hdigits : (floatParts x).1 = n * 2 ^ s) (he : e = (floatParts x).2 + s) :
    magnitudeBits n e = x.toBits.toNat % 2 ^ 63 := by
  obtain ⟨hmost, hexponent, hleast⟩ := Double.floatParts_bounds h
  have hbits := Double.toNat_mod_eq x
  have hlength := bitLength_mul_two_pow hn s
  have hpos : 0 < (floatParts x).1 := hdigits ▸ Nat.mul_pos hn (Nat.two_pow_pos s)
  have hfew : bitLength (floatParts x).1 ≤ 53 := bitLength_le hmost
  have hmany : 0 < bitLength (floatParts x).1 := bitLength_pos hpos
  rw [← hdigits] at hlength
  -- the last of the places that a double has is that of the digits
  have hunit : max (e + bitLength n - 1 - 52) (-1074) = (floatParts x).2 := by
    rcases hleast with ⟨hdigit, hlow⟩ | hlow
    · have hfull : 53 ≤ bitLength (floatParts x).1 := by
        by_contra hshort
        have hlt := lt_of_lt_of_le (lt_of_bitLength (floatParts x).1)
          (Nat.pow_le_pow_right Nat.two_pos (Nat.lt_succ_iff.mp (not_le.mp hshort)))
        omega
      omega
    · omega
  unfold magnitudeBits
  simp only
  rw [if_neg hn.ne', hunit, if_neg (by omega), if_neg (by omega), if_pos (by omega)]
  have hshift : (e - (floatParts x).2).toNat = s := by omega
  have hmul : n * Nat.pow 2 s = (floatParts x).1 := hdigits.symm
  rw [hshift, hmul]
  show min (((floatParts x).2 + 1074).toNat * 2 ^ 52 + (floatParts x).1) (2047 * 2 ^ 52) = _
  rw [hbits]
  omega

/-- A finite double is read as its magnitude with its sign. -/
theorem ofFloat_eq (h : x.isFinite = true) : ofFloat x =
    normal ⟨(if isNegativeFloat x then -1 else 1) * (floatParts x).1, (floatParts x).2⟩ := by
  have hlast := (Double.isFinite_iff x).mp h
  rw [Ne, ← BitVec.toNat_inj, Double.toNat_exponentField] at hlast
  have hmost : x.toBits.toNat / Nat.pow 2 52 % 2048 ≠ 2047 := hlast
  have hlt : x.toBits.toNat < 2 ^ 64 := x.toBits.toBitVec.isLt
  have hsign : (if x.toBits.toNat / Nat.pow 2 63 = 0 then 1 else -1 : ℤ) =
      if isNegativeFloat x then -1 else 1 := by
    have hpow : Nat.pow 2 63 = 2 ^ 63 := rfl
    unfold isNegativeFloat
    rw [hpow]
    by_cases hzero : x.toBits.toNat / 2 ^ 63 = 0
    · rw [if_pos hzero, hzero]
      rfl
    · have hone : x.toBits.toNat / 2 ^ 63 = 1 := by omega
      rw [if_neg hzero, hone]
      rfl
  unfold ofFloat floatParts
  simp only
  rw [if_neg hmost, hsign]
  split
  · rfl
  · rfl

/-- A finite double is its own nearest double, whatever its digits are divided by. -/
theorem toFloat_eq (h : x.isFinite = true) {y : BigFloat} {s : ℕ} (hy : y.mantissa ≠ 0)
    (hmantissa : (if isNegativeFloat x then -1 else 1) * ((floatParts x).1 : ℤ) =
      y.mantissa * 2 ^ s) (hexponent : y.exponent = (floatParts x).2 + s) : y.toFloat = x := by
  have hlt : x.toBits.toNat < 2 ^ 64 := x.toBits.toBitVec.isLt
  have hpos : 0 < y.mantissa.natAbs := Int.natAbs_pos.mpr hy
  have hdigits : (floatParts x).1 = y.mantissa.natAbs * 2 ^ s := by
    have habs := congrArg Int.natAbs hmantissa
    rw [Int.natAbs_mul, Int.natAbs_mul, Int.natAbs_pow] at habs
    have hone : (if isNegativeFloat x then -1 else 1 : ℤ).natAbs = 1 := by split <;> rfl
    rw [hone, Nat.one_mul] at habs
    exact habs
  have hpow : (0 : ℤ) < 2 ^ s := by positivity
  have hsign : y.mantissa < 0 ↔ isNegativeFloat x = true := by
    have hsome : (0 : ℤ) < (floatParts x).1 := by
      rw [hdigits]
      exact_mod_cast Nat.mul_pos hpos (Nat.two_pow_pos s)
    cases hminus : isNegativeFloat x with
    | true =>
      rw [hminus, if_pos rfl] at hmantissa
      refine iff_of_true ?_ rfl
      by_contra hnot
      have := mul_nonneg (not_lt.mp hnot) hpow.le
      omega
    | false =>
      rw [hminus, if_neg nofun] at hmantissa
      refine iff_of_false (fun hneg => ?_) nofun
      have := mul_neg_of_neg_of_pos hneg hpow
      omega
  have hbits : (if y.mantissa < 0 then
      magnitudeBits y.mantissa.natAbs y.exponent + Nat.pow 2 63
      else magnitudeBits y.mantissa.natAbs y.exponent) = x.toBits.toNat := by
    rw [magnitudeBits_eq h hpos hdigits hexponent]
    have hminus : isNegativeFloat x = decide (x.toBits.toNat / 2 ^ 63 = 1) := rfl
    have hhigh : Nat.pow 2 63 = 2 ^ 63 := rfl
    rw [hhigh]
    split
    · rename_i hneg
      have := of_decide_eq_true (hminus ▸ hsign.mp hneg)
      omega
    · rename_i hnot
      have := of_decide_eq_false (hminus ▸ eq_false_of_ne_true fun htrue => hnot (hsign.mpr htrue))
      omega
  unfold toFloat
  simp only
  rw [hbits, UInt64.ofNat_toNat]
  exact Double.ofBits_toBits h

/-- A finite double has no more digits than it is rounded to. -/
theorem bitLength_ofFloat_le (h : x.isFinite = true) :
    bitLength (ofFloat x).mantissa.natAbs ≤ 53 := by
  set y : BigFloat :=
    ⟨(if isNegativeFloat x then -1 else 1) * (floatParts x).1, (floatParts x).2⟩ with hy
  have habs : y.mantissa.natAbs = (floatParts x).1 := by
    rw [hy, Int.natAbs_mul]
    split <;> simp
  rw [ofFloat_eq h, ← hy]
  refine bitLength_le (lt_of_le_of_lt ?_ (Double.floatParts_bounds h).1)
  by_cases hzero : y.mantissa = 0
  · rw [(mantissa_normal_eq_zero_iff y).mpr hzero]
    exact Nat.zero_le _
  · obtain ⟨s, hs, -⟩ := exists_normal hzero
    rw [← habs, hs, Int.natAbs_mul]
    exact Nat.le_mul_of_pos_right _ (by simp)

/-- A finite double that is read as a number and rounded to the digits of a double comes back,
but for the minus of nought. -/
theorem toFloat_round_ofFloat (h : x.isFinite = true) :
    ((ofFloat x).round 53).toFloat = if x == 0.0 then 0.0 else x := by
  split
  · rename_i hzero
    rcases Double.beq_zero_iff.mp hzero with rfl | rfl
    · rfl
    · rfl
  · rename_i hnonzero
    set y : BigFloat :=
      ⟨(if isNegativeFloat x then -1 else 1) * (floatParts x).1, (floatParts x).2⟩ with hy
    have hpos := Double.floatParts_pos_of_ne_zero h hnonzero
    have hmantissa : y.mantissa ≠ 0 := by
      rw [hy]
      refine mul_ne_zero ?_ (by exact_mod_cast hpos.ne')
      split <;> decide
    obtain ⟨s, hs, hes⟩ := exists_normal hmantissa
    have hnormal : y.normal.mantissa ≠ 0 := (mantissa_normal_eq_zero_iff y).not.mpr hmantissa
    obtain ⟨t, ht, het⟩ := exists_normal hnormal
    rw [round_eq_normal (bitLength_ofFloat_le h), ofFloat_eq h]
    refine toFloat_eq h ((mantissa_normal_eq_zero_iff y.normal).not.mpr hnormal) (s := s + t) ?_ ?_
    · calc (if isNegativeFloat x then -1 else 1) * ((floatParts x).1 : ℤ)
          = y.normal.mantissa * 2 ^ s := hs
        _ = y.normal.normal.mantissa * 2 ^ (s + t) := by rw [ht, mul_assoc, pow_add, mul_comm (2 ^ t)]
    · rw [het, hes]
      push_cast
      exact add_assoc _ _ _

end BigFloat

end QuantumGates
