-- Powers of two as doubles. All those below the largest exponent are doubles, and the others are
-- beyond them. A double with all of its digits is divided by a power of two without loss, as long
-- as its exponent stays within the range; so half a turn has every half down to the smallest.
import QuantumGates.Proofs.Exact.Numbers
import QuantumGates.Proofs.Number.ExactRounding

namespace QuantumGates

open Float.Model Float.Model.UnpackedFloat

namespace Double

/-! ## Powers of two -/

theorem fits_two_pow (k : ℕ) : Fits (2 ^ 52) ((k : ℤ) - 52) :=
  ⟨by norm_num, by norm_num, by omega, .inl le_rfl⟩

/-- The powers of two that are whole numbers of few digits. -/
theorem bits_small_two_pow {k : ℕ} (h : k < 53) :
    bits (Float.ofNat (2 ^ k)) = UnpackedFloat.pack Format.binary64
      (.finite .positive (2 ^ 52) ((k : ℤ) - 52) (fits_two_pow k).pos) := by
  have hall : ∀ j : Fin 53, bits (Float.ofNat (2 ^ j.val)) =
      UnpackedFloat.pack Format.binary64 (.finite .positive (2 ^ 52) ((j.val : ℤ) - 52)
        (fits_two_pow j).pos) := by
    decide +kernel
  exact hall ⟨k, h⟩

/-- A power of two is packed with one digit and noughts, even beyond the largest double. -/
theorem bits_ofNat_two_pow (k : ℕ) :
    bits (Float.ofNat (2 ^ k)) = UnpackedFloat.pack Format.binary64
      (.finite .positive (2 ^ 52) ((k : ℤ) - 52) (fits_two_pow k).pos) := by
  by_cases hk : k < 53
  · exact bits_small_two_pow hk
  · have hlarge : ¬ (2 ^ k < 2 ^ 53 ∧ 0 ≤ 22) := by
      rw [Nat.pow_lt_pow_iff_right (by omega)]
      omega
    have hofNat : Float.ofNat (2 ^ k) = ⟨Float.Model.ofScientific (2 ^ k) 0⟩ := dif_neg hlarge
    have hscientific : UnpackedFloat.ofScientific Format.binary64 (2 ^ k) 0 =
        roundWithAccuracy Format.binary64 .positive ((2 ^ k) <<< 53 * 10 ^ 0) (-53 + 0) .exact := by
      unfold UnpackedFloat.ofScientific
      rw [dif_neg (Nat.two_pow_pos k).ne', if_neg (by decide), if_neg ?_, if_pos le_rfl]
      · rfl
      · show ¬ (0 : ℤ) < -(2 ^ 11 + ((2 ^ k).log2 : ℤ))
        omega
    have hdigits : (2 ^ k) <<< 53 * 10 ^ 0 = 2 ^ 52 * 2 ^ (k + 1) := by
      rw [Nat.shiftLeft_eq, pow_zero, Nat.mul_one, ← pow_add, ← pow_add]
      congr 1
      omega
    have hexponent : (-53 + 0 : ℤ) = (k : ℤ) - 52 - ((k + 1 : ℕ) : ℤ) := by omega
    rw [hofNat]
    show UnpackedFloat.pack Format.binary64
      (UnpackedFloat.ofScientific Format.binary64 (2 ^ k) 0) = _
    rw [hscientific, hdigits, hexponent, roundWithAccuracy_exact (fits_two_pow k)]

theorem unpack_ofNat_two_pow {k : ℕ} (h : k ≤ 1023) :
    (Float.ofNat (2 ^ k)).toModel.unpack =
      .finite .positive (2 ^ 52) ((k : ℤ) - 52) (fits_two_pow k).pos :=
  unpack_of_bits (fits_two_pow k) (by omega) (bits_ofNat_two_pow k)

/-- The powers of two that are doubles. -/
theorem isFinite_ofNat_two_pow (k : ℕ) :
    (Float.ofNat (2 ^ k)).isFinite = decide (k ≤ 1023) := by
  have hfinite : (Float.ofNat (2 ^ k)).isFinite =
      (Float.ofNat (2 ^ k)).toModel.unpack.isFinite := rfl
  by_cases h : k ≤ 1023
  · rw [hfinite, unpack_ofNat_two_pow h, decide_eq_true h]
    rfl
  · have hbits := bits_ofNat_two_pow k
    unfold UnpackedFloat.pack at hbits
    dsimp only at hbits
    have hlarge : 2 ^ 11 ≤
        ((k : ℤ) - 52 + (Format.binary64.exponentBias : ℤ) + (52 : ℕ)).toNat + 1 := by
      show 2 ^ 11 ≤ ((k : ℤ) - 52 + 1023 + 52).toNat + 1
      omega
    rw [if_pos hlarge] at hbits
    have hlast : exponentField (Float.ofNat (2 ^ k)) = -1 := by
      unfold exponentField
      rw [hbits]
      exact unpackExponent_packComponents
    rw [decide_eq_false h, Bool.eq_false_iff, Ne, isFinite_iff, not_not]
    exact hlast

/-! ## Quotients by powers of two -/

theorem parts_of_unpack {x : Float} {s : UnpackedFloat.Sign} {m : ℕ} {e : ℤ} {h : 0 < m}
    (hx : x.toModel.unpack = .finite s m e h) : floatParts x = (m, e) ∧ signOf x = s := by
  cases unpacked x with
  | undefined _ hunpack | infinite _ hunpack | nought _ _ hunpack =>
    rw [hunpack] at hx
    cases hx
  | finite _ _ hunpack =>
    obtain ⟨hsign, hdigits, hexponent⟩ := UnpackedFloat.finite.inj (hunpack.symm.trans hx)
    exact ⟨Prod.ext hdigits hexponent, hsign⟩

theorem beq_zero_ofNat_two_pow {k : ℕ} (h : k ≤ 1023) : (Float.ofNat (2 ^ k) == 0.0) = false := by
  rw [Bool.eq_false_iff]
  intro hzero
  obtain ⟨hexponent, hfraction⟩ := fields_of_beq_zero hzero
  have hparts := (parts_of_unpack (unpack_ofNat_two_pow h)).1
  rw [floatParts_eq, if_pos hexponent, hfraction] at hparts
  have hdigits : 0 = 2 ^ 52 := congrArg Prod.fst hparts
  exact absurd hdigits (by decide)

/-- The quotient of full digits by a power of two has no remainder. -/
theorem divCore_two_pow {m k : ℕ} {e : ℤ} (hfull : 2 ^ 52 ≤ m) (hfew : m < 2 ^ 53)
    (hleast : -1074 ≤ e - k) :
    ∃ j : ℕ, divCore Format.binary64 m e (2 ^ 52) (k - 52) = (m * 2 ^ j, e - k - j, .exact) := by
  have hm : totalExponent m e = 53 + e := by
    unfold totalExponent
    rw [log2_of_full hfull hfew]
    rfl
  have htwo : totalExponent (2 ^ 52) (k - 52) = k + 1 := by
    unfold totalExponent
    rw [log2_of_full le_rfl (by norm_num)]
    omega
  unfold divCore
  dsimp only
  rw [hm, htwo, targetExponent_eq]
  set target := min (e - (k - 52)) (max (53 + e - (k + 1) - 53) (-1074)) with htarget
  obtain ⟨j, hj⟩ : ∃ j : ℕ, target = e - k - j := ⟨(e - k - target).toNat, by omega⟩
  have hshift : (e - (k - 52) - target).toNat = j + 52 := by omega
  have hdigits : m <<< (j + 52) = m * 2 ^ j * 2 ^ 52 := by
    rw [Nat.shiftLeft_eq, pow_add, Nat.mul_assoc]
  refine ⟨j, ?_⟩
  rw [hshift, hdigits, Nat.mul_div_cancel _ (by norm_num), Nat.mul_mod_left, hj]
  rfl

/-- A double with all of its digits is divided by a power of two without loss. -/
theorem unpack_div_two_pow {x : Float} {s : UnpackedFloat.Sign} {m k : ℕ} {e : ℤ} {h : 0 < m}
    (hx : x.toModel.unpack = .finite s m e h) (hfull : 2 ^ 52 ≤ m) (hfew : m < 2 ^ 53)
    (hleast : -1074 ≤ e - k) (hmost : e - k ≤ 971) (hk : k ≤ 1023) :
    (x / Float.ofNat (2 ^ k)).toModel.unpack = .finite s m (e - k) h := by
  have hfits : Fits m (e - k) := ⟨h, hfew, hleast, .inl hfull⟩
  obtain ⟨j, hj⟩ := divCore_two_pow hfull hfew hleast
  have hsign : s / .positive = s := by
    cases s <;> rfl
  refine unpack_of_bits hfits hmost ?_
  show UnpackedFloat.pack Format.binary64 (UnpackedFloat.div Format.binary64 x.toModel.unpack
    (Float.ofNat (2 ^ k)).toModel.unpack) = _
  rw [hx, unpack_ofNat_two_pow hk]
  unfold UnpackedFloat.div
  dsimp only
  rw [hj, hsign]
  exact congrArg _ (roundWithAccuracy_exact hfits j s)

theorem real_div_two_pow {x : Float} {k : ℕ} (hx : x.isFinite = true)
    (hfull : 2 ^ 52 ≤ (floatParts x).1) (hleast : -1074 ≤ (floatParts x).2 - k) (hk : k ≤ 1023) :
    real (x / Float.ofNat (2 ^ k)) = real x / 2 ^ k := by
  obtain ⟨hfew, hmost, -⟩ := floatParts_bounds hx
  cases digits hx with
  | nought hzero =>
    obtain ⟨hexponent, hfraction⟩ := fields_of_beq_zero hzero
    rw [floatParts_eq, if_pos hexponent, hfraction] at hfull
    exact absurd hfull (by decide)
  | fit hfits hunpack =>
    obtain ⟨hparts, hsign⟩ := parts_of_unpack
      (unpack_div_two_pow hunpack hfull hfew hleast (by omega) hk)
    have hminus : isNegativeFloat (x / Float.ofNat (2 ^ k)) = isNegativeFloat x := by
      rw [Bool.eq_iff_iff, isNegativeFloat_iff, isNegativeFloat_iff, hsign]
    have hmagnitude : magnitude (x / Float.ofNat (2 ^ k)) = magnitude x / 2 ^ k := by
      unfold magnitude
      rw [hparts, zpow_sub₀ (by norm_num), zpow_natCast]
      push_cast
      ring
    unfold real
    rw [hminus, hmagnitude]
    split
    · rw [neg_div]
    · rfl

/-- Half a turn and every half of it down to the smallest one. -/
theorem unpack_pi : ∃ h, pi.toModel.unpack = .finite .positive 0x1921FB54442D18 (-51) h :=
  ⟨by norm_num, by rfl⟩

theorem real_pi_div_two_pow {k : ℕ} (hk : k ≤ 1023) :
    real (pi / Float.ofNat (2 ^ k)) = real pi / 2 ^ k := by
  obtain ⟨_, hunpack⟩ := unpack_pi
  have hparts := (parts_of_unpack hunpack).1
  refine real_div_two_pow rfl ?_ ?_ hk
  · rw [hparts]
    norm_num
  · rw [hparts]
    show (-1074 : ℤ) ≤ -51 - k
    omega

end Double

end QuantumGates
