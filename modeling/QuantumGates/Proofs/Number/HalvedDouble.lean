-- Half of a finite double is finite. Rounding shifts the digits of a quotient until they fit, and
-- the exponent that it ends with is bounded by the size of the quotient. So the half of a number
-- has no larger exponent than the largest finite double, and sine and cosine have a value at it.
import QuantumGates.Proofs.Number.DoubleValue
import QuantumGates.Scalar

namespace QuantumGates

open Float.Model Float.Model.UnpackedFloat

namespace Double

/-! ## Rounding -/

theorem mantissa_shiftRight (em : ExtendedMantissa) (k : ℕ) :
    (em >>> k).mantissa = em.mantissa / 2 ^ k := by
  induction k with
  | zero => exact (Nat.div_one _).symm
  | succ k ih =>
    show (em >>> k).mantissa / 2 = _
    rw [ih, Nat.div_div_eq_div_mul, pow_succ]

theorem mantissa_ofMantissaAndAccuracy (m : ℕ) (a : Accuracy) :
    (ExtendedMantissa.ofMantissaAndAccuracy m a).mantissa = m := by
  cases a with
  | exact => rfl
  | inexact o => cases o <;> rfl

theorem roundedMantissa_le (em : ExtendedMantissa) :
    em.roundedMantissa ≤ em.mantissa + 1 := by
  unfold ExtendedMantissa.roundedMantissa Accuracy.roundToNearestEven
  split <;> omega

theorem targetExponent_eq (t : ℤ) :
    Format.binary64.targetExponent t = max (t - 53) (-1074) := rfl

/-- A number shifted to the digits of a double has at most one more bit than they have. -/
theorem shifted_lt (m : ℕ) (e : ℤ) :
    m / 2 ^ (Format.binary64.targetExponent (totalExponent m e) - e).toNat < 2 ^ 53 := by
  set k := (Format.binary64.targetExponent (totalExponent m e) - e).toNat with hk
  have hlog : m.log2 + 1 ≤ 53 + k := by
    rw [targetExponent_eq] at hk
    unfold totalExponent at hk
    omega
  rw [Nat.div_lt_iff_lt_mul (Nat.two_pow_pos k), ← pow_add]
  exact lt_of_lt_of_le Nat.lt_log2_self (Nat.pow_le_pow_right (by omega) hlog)

/-- A number below `2 ^ 1023` is rounded to one with a finite exponent. -/
theorem roundWithAccuracy_cases {m : ℕ} {e : ℤ} (hm : totalExponent m e ≤ 1023) (he : e ≤ 970)
    (s : UnpackedFloat.Sign) (a : Accuracy) :
    roundWithAccuracy Format.binary64 s m e a = .zero s ∨
      ∃ m' e' h, roundWithAccuracy Format.binary64 s m e a = .finite s m' e' h ∧ e' ≤ 971 := by
  have hshifted := shifted_lt m e
  unfold roundWithAccuracy shiftToTargetExponent shiftToExponent
  dsimp only
  set k := (Format.binary64.targetExponent (totalExponent m e) - e).toNat with hk
  set em := ExtendedMantissa.ofMantissaAndAccuracy m a >>> k with hem
  have hmantissa : em.mantissa < 2 ^ 53 := by
    rwa [hem, mantissa_shiftRight, mantissa_ofMantissaAndAccuracy]
  have hexponent : e + k ≤ 970 := by
    rw [targetExponent_eq] at hk
    omega
  -- Rounding up can make one more digit, which moves the exponent by one.
  have hrounded : em.roundedMantissa.log2 ≤ 53 := by
    have hle := roundedMantissa_le em
    by_cases hzero : em.roundedMantissa = 0
    · rw [hzero]
      decide
    · have hlt : em.roundedMantissa < 2 ^ 54 := by omega
      have := (Nat.log2_lt hzero).mpr hlt
      omega
  refine Or.imp (fun hzero => dif_pos hzero)
    (fun hne => ⟨_, _, Nat.pos_of_ne_zero hne, dif_neg hne, ?_⟩) (Decidable.em _)
  rw [targetExponent_eq]
  unfold totalExponent
  omega

/-! ## Halves -/

/-- The size of a finite double. -/
theorem totalExponent_floatParts_le {x : Float} (h : exponentField x ≠ -1) :
    totalExponent (floatParts x).1 (floatParts x).2 ≤ 1024 := by
  have hexponent : (exponentField x).toNat ≤ 2046 := by
    have hlt := (exponentField x).isLt
    rw [Ne, ← BitVec.toNat_inj] at h
    have hlast : (-1 : BitVec 11).toNat = 2047 := rfl
    omega
  have hfraction := (fractionField x).isLt
  have hlog : ∀ m : ℕ, m < 2 ^ 53 → m.log2 ≤ 52 := by
    intro m hm
    by_cases hzero : m = 0
    · rw [hzero]
      decide
    · have := (Nat.log2_lt hzero).mpr hm
      omega
  unfold totalExponent
  rw [floatParts_eq]
  split
  · have := hlog (fractionField x).toNat (by omega)
    dsimp only
    omega
  · have := hlog ((fractionField x).toNat + 2 ^ 52) (by omega)
    dsimp only
    omega

theorem log2_quotient_le {m k n : ℕ} (h : (m <<< k) / 2 ^ n ≠ 0) :
    ((m <<< k) / 2 ^ n).log2 + n ≤ m.log2 + k := by
  have hlow : 2 ^ ((m <<< k) / 2 ^ n).log2 * 2 ^ n ≤ m * 2 ^ k :=
    calc 2 ^ ((m <<< k) / 2 ^ n).log2 * 2 ^ n
        ≤ (m <<< k) / 2 ^ n * 2 ^ n := Nat.mul_le_mul_right _ (Nat.log2_self_le h)
      _ ≤ m <<< k := Nat.div_mul_le_self ..
      _ = m * 2 ^ k := Nat.shiftLeft_eq ..
  have hhigh : m * 2 ^ k < 2 ^ (m.log2 + 1) * 2 ^ k :=
    Nat.mul_lt_mul_of_pos_right Nat.lt_log2_self (Nat.two_pow_pos k)
  have hpow := lt_of_le_of_lt hlow hhigh
  rw [← pow_add, ← pow_add] at hpow
  have hlt := (Nat.pow_lt_pow_iff_right (by omega)).mp hpow
  omega

/-- The digits of a quotient by two, of which one more is kept than a double has at most. -/
theorem totalExponent_quotient_le {m k : ℕ} {e : ℤ} (he : e - k ≤ 969)
    (hm : totalExponent m (e - 51) ≤ 1024) :
    totalExponent ((m <<< k) / 2 ^ 52) (e - k) ≤ 1023 := by
  unfold totalExponent at hm ⊢
  by_cases hzero : (m <<< k) / 2 ^ 52 = 0
  · rw [hzero]
    have hlog : Nat.log2 0 = 0 := rfl
    omega
  · have hle := log2_quotient_le hzero
    omega

/-- The exponent of a packed number with a finite exponent. -/
theorem unpackExponent_pack_ne {s : UnpackedFloat.Sign} {m : ℕ} {e : ℤ} (h : 0 < m)
    (he : e ≤ 971) :
    unpackExponent (UnpackedFloat.pack Format.binary64 (.finite s m e h)) ≠ -1 := by
  unfold UnpackedFloat.pack
  dsimp only
  have hbiased : (e + (Format.binary64.exponentBias : ℤ) + (52 : ℕ)).toNat ≤ 2046 := by
    show (e + 1023 + 52).toNat ≤ 2046
    omega
  generalize (e + (Format.binary64.exponentBias : ℤ) + (52 : ℕ)).toNat = n at hbiased
  have hsmall : ¬ 2 ^ 11 ≤ n + 1 := by omega
  rw [if_neg hsmall]
  split
  · rw [unpackExponent_packComponents, Ne, ← BitVec.toNat_inj, BitVec.toNat_ofNat]
    show n % 2048 ≠ 2047
    omega
  · rw [unpackExponent_packComponents]
    decide

theorem unpack_two : ∃ h, (2.0 : Float).toModel.unpack = .finite .positive (2 ^ 52) (-51) h :=
  ⟨by norm_num, by rfl⟩

theorem isFinite_half {x : Float} (h : x.isFinite = true) : (x / 2.0).isFinite = true := by
  obtain ⟨htwo, hunpack⟩ := unpack_two
  have hfield : exponentField (x / 2.0) = unpackExponent (UnpackedFloat.pack Format.binary64
      (UnpackedFloat.div Format.binary64 x.toModel.unpack (2.0 : Float).toModel.unpack)) := rfl
  rw [isFinite_iff, hfield, hunpack]
  cases unpackedFinite h with
  | nought hexponent hfraction hx =>
    rw [hx]
    show unpackExponent (packComponents Format.binary64 _ 0 0) ≠ -1
    rw [unpackExponent_packComponents]
    decide
  | finite hpos hlast hx =>
    rw [hx]
    have hsize := totalExponent_floatParts_le hlast
    unfold UnpackedFloat.div UnpackedFloat.divCore
    dsimp only
    generalize (floatParts x).1 = m at hpos hsize
    generalize (floatParts x).2 = e at hsize
    set t := Format.binary64.targetExponent (totalExponent m e - totalExponent (2 ^ 52) (-51))
      with ht
    set k := (e - -51 - min (e - -51) t).toNat with hk
    have htarget : t ≤ 969 := by
      have htwo : totalExponent (2 ^ 52) (-51) = 2 := rfl
      rw [targetExponent_eq, htwo] at ht
      omega
    have hexponent : min (e - -51) t = e + 51 - k := by omega
    rw [hexponent]
    have hquotient : totalExponent ((m <<< k) / 2 ^ 52) (e + 51 - k) ≤ 1023 :=
      totalExponent_quotient_le (by omega) (by rwa [add_sub_cancel_right])
    rcases roundWithAccuracy_cases hquotient (by omega) (signOf x / .positive)
      (accuracyOfFraction ((m <<< k) % 2 ^ 52) (2 ^ 52)) with hround | ⟨m', e', h', hround, he'⟩
    · rw [hround]
      show unpackExponent (packComponents Format.binary64 _ 0 0) ≠ -1
      rw [unpackExponent_packComponents]
      decide
    · rw [hround]
      exact unpackExponent_pack_ne h' he'

end Double

end QuantumGates
