-- Rounding that loses nothing. A number with the digits and the exponent of a double is rounded to
-- itself, however many noughts stand behind its digits. So one is neutral for products, nought for
-- sums and differences, and half a turn is halved without loss as far as the exponents reach.
import QuantumGates.Proofs.Number.Comparison
import QuantumGates.Proofs.Number.HalvedDouble

namespace QuantumGates

open Float.Model Float.Model.UnpackedFloat

namespace Double

/-! ## Numbers that are rounded to themselves -/

/-- Digits and an exponent that a double other than nought may have, but for the largest
exponents. -/
structure Fits (m : ℕ) (e : ℤ) : Prop where
  pos : 0 < m
  few : m < 2 ^ 53
  least : -1074 ≤ e
  full : 2 ^ 52 ≤ m ∨ e = -1074

theorem log2_of_full {m : ℕ} (hfull : 2 ^ 52 ≤ m) (hfew : m < 2 ^ 53) : m.log2 = 52 :=
  (Nat.log2_eq_iff (by omega)).mpr ⟨hfull, hfew⟩

namespace Fits

variable {m k : ℕ} {e : ℤ}

/-- The digits of a finite double other than nought. -/
theorem floatParts {x : Float} (h : x.isFinite = true) (hpos : 0 < (floatParts x).1) :
    Fits (floatParts x).1 (floatParts x).2 := by
  obtain ⟨hfew, -, hfull⟩ := floatParts_bounds h
  exact ⟨hpos, hfew, by omega, hfull.imp_left (·.1)⟩

theorem targetExponent (h : Fits m e) :
    Format.binary64.targetExponent (totalExponent m e) = e := by
  have hleast := h.least
  rw [targetExponent_eq]
  unfold totalExponent
  rcases h.full with hfull | hexponent
  · rw [log2_of_full hfull h.few]
    omega
  · have hlog := (Nat.log2_lt h.pos.ne').mpr h.few
    omega

/-- Noughts behind the digits lower the exponent that belongs to them. -/
theorem totalExponent_mul (h : Fits m e) (k : ℕ) :
    totalExponent (m * 2 ^ k) (e - k) = totalExponent m e := by
  have hlog : (m * 2 ^ k).log2 = m.log2 + k := by
    have hlength := bitLength_mul_two_pow h.pos k
    unfold bitLength at hlength
    rw [if_neg (Nat.mul_pos h.pos (Nat.two_pow_pos k)).ne', if_neg h.pos.ne'] at hlength
    omega
  unfold totalExponent
  omega

end Fits

/-- Noughts behind the digits are dropped without a trace. -/
theorem shiftRight_exact (m k : ℕ) :
    ExtendedMantissa.ofMantissaAndAccuracy (m * 2 ^ k) .exact >>> k =
      ExtendedMantissa.ofMantissaAndAccuracy m .exact := by
  induction k generalizing m with
  | zero =>
    rw [pow_zero, Nat.mul_one]
    rfl
  | succ k ih =>
    have hone : ExtendedMantissa.shiftRightOne (.ofMantissaAndAccuracy (m * 2) .exact) =
        .ofMantissaAndAccuracy m .exact := by
      simp [ExtendedMantissa.shiftRightOne, ExtendedMantissa.ofMantissaAndAccuracy]
    rw [pow_succ', ← Nat.mul_assoc]
    show ExtendedMantissa.shiftRightOne
      (ExtendedMantissa.ofMantissaAndAccuracy (m * 2 * 2 ^ k) .exact >>> k) = _
    rw [ih, hone]

/-- A number that fits is rounded to itself. -/
theorem roundWithAccuracy_exact {m : ℕ} {e : ℤ} (h : Fits m e) (k : ℕ)
    (s : UnpackedFloat.Sign) :
    roundWithAccuracy Format.binary64 s (m * 2 ^ k) (e - k) .exact = .finite s m e h.pos := by
  have hshift : (e - (e - k)).toNat = k := by omega
  have hexponent : e - (k : ℤ) + k = e := by omega
  have hfirst : shiftToTargetExponent Format.binary64 (m * 2 ^ k) (e - k) .exact =
      (ExtendedMantissa.ofMantissaAndAccuracy m .exact, e) := by
    unfold shiftToTargetExponent shiftToExponent
    dsimp only
    rw [h.totalExponent_mul, h.targetExponent, hshift, shiftRight_exact, hexponent]
  -- Rounding a second time has nothing left to shift.
  have hsecond : shiftToTargetExponent Format.binary64 m e .exact =
      (ExtendedMantissa.ofMantissaAndAccuracy m .exact, e) := by
    unfold shiftToTargetExponent shiftToExponent
    dsimp only
    rw [h.targetExponent, sub_self]
    exact Prod.ext rfl (add_zero e)
  have hdigits : (ExtendedMantissa.ofMantissaAndAccuracy m .exact).roundedMantissa = m := rfl
  unfold roundWithAccuracy
  rw [hfirst]
  dsimp only
  rw [hdigits, hsecond]
  exact dif_neg h.pos.ne'

/-! ## Packing -/

/-- A finite double is packed into its own bits. -/
theorem pack_unpack {x : Float} (h : x.isFinite = true) :
    UnpackedFloat.pack Format.binary64 x.toModel.unpack = bits x :=
  congrArg bits (ofBits_toBits h)

theorem eq_of_bits_eq {x y : Float} (h : bits x = bits y) : x = y :=
  eq_of_toBits_eq (UInt64.toBitVec_inj.mp h)

/-- The fields of a double that is packed from digits and an exponent that fit. -/
theorem pack_fits {m : ℕ} {e : ℤ} (h : Fits m e) (hmost : e ≤ 971) (s : UnpackedFloat.Sign) :
    UnpackedFloat.pack Format.binary64 (.finite s m e h.pos) =
      packComponents Format.binary64 s
        (BitVec.ofNat 11 (if 2 ^ 52 ≤ m then (e + 1075).toNat else 0)) (BitVec.ofNat 52 m) := by
  have hleast := h.least
  have hbiased : (e + (Format.binary64.exponentBias : ℤ) + (52 : ℕ)).toNat =
      (e + 1075).toNat := by
    show (e + 1023 + 52).toNat = _
    omega
  unfold UnpackedFloat.pack
  dsimp only
  rw [hbiased, if_neg (show ¬ 2 ^ 11 ≤ (e + 1075).toNat + 1 by omega)]
  by_cases hfull : 2 ^ 52 ≤ m
  · have hlog : m.log2 + 1 = Format.binary64.mantissaBits := by
      rw [log2_of_full hfull h.few]
      rfl
    rw [if_pos hlog, if_pos hfull]
  · have hlog : m.log2 + 1 ≠ Format.binary64.mantissaBits := by
      have hlt := (Nat.log2_lt h.pos.ne').mpr (Nat.lt_of_not_le hfull)
      show m.log2 + 1 ≠ 53
      omega
    rw [if_neg hlog, if_neg hfull]

/-- A double made of digits and an exponent that fit is unpacked to them. -/
theorem unpack_of_bits {x : Float} {m : ℕ} {e : ℤ} (h : Fits m e) (hmost : e ≤ 971)
    {s : UnpackedFloat.Sign}
    (hx : bits x = UnpackedFloat.pack Format.binary64 (.finite s m e h.pos)) :
    x.toModel.unpack = .finite s m e h.pos := by
  rw [pack_fits h hmost] at hx
  set biased := if 2 ^ 52 ≤ m then (e + 1075).toNat else 0 with hbiased
  have hpos := h.pos
  have hfew := h.few
  have hleast := h.least
  have hsmall : biased < 2047 ∧ (2 ^ 52 ≤ m ↔ biased ≠ 0) := by
    rw [hbiased]
    split <;> omega
  have hexponent : (exponentField x).toNat = biased := by
    rw [exponentField, hx, unpackExponent_packComponents, BitVec.toNat_ofNat]
    exact Nat.mod_eq_of_lt (by omega)
  have hfraction : (fractionField x).toNat = m % 2 ^ 52 := by
    rw [fractionField, hx, unpackMantissa_packComponents, BitVec.toNat_ofNat]
  have hsign : signOf x = s := by
    rw [signOf, signField, hx, unpackSign_packComponents]
    cases s <;> rfl
  have hnought : exponentField x = 0 ↔ biased = 0 := by
    rw [← BitVec.toNat_inj, hexponent]
    rfl
  have hparts : floatParts x = (m, e) := by
    rw [floatParts_eq, hfraction, hexponent]
    by_cases hfull : 2 ^ 52 ≤ m
    · rw [if_neg (by rw [hnought]; omega), hbiased, if_pos hfull]
      exact Prod.ext (by omega) (by omega)
    · rw [if_pos (by rw [hnought]; omega)]
      exact Prod.ext (Nat.mod_eq_of_lt (by omega)) ((h.full.resolve_left hfull).symm)
  have hlast : exponentField x ≠ -1 := by
    rw [Ne, ← BitVec.toNat_inj, hexponent]
    show biased ≠ 2047
    omega
  cases unpackedFinite ((isFinite_iff x).mpr hlast) with
  | nought hzero hzero' hunpack =>
    rw [floatParts_eq, if_pos hzero, hzero'] at hparts
    exact absurd (congrArg Prod.fst hparts) hpos.ne
  | finite _ _ hunpack =>
    rw [hunpack, hsign]
    exact finite_congr _ (congrArg Prod.fst hparts) (congrArg Prod.snd hparts)

/-! ## Neutral numbers -/

/-- The same double, or two noughts. -/
def Same (x y : Float) : Prop := x = y ∨ (x == 0.0) = true ∧ (y == 0.0) = true

section

variable {x y z : Float}

theorem Same.beq (h : Same x y) (hy : y.isFinite = true) : (x == y) = true := by
  rcases h with rfl | ⟨hx, hy⟩
  · rw [beq_self, isNaN_of_isFinite hy]
    rfl
  · exact beq_of_beq_zero hx hy

theorem unpack_of_beq_zero (h : (x == 0.0) = true) : x.toModel.unpack = .zero (signOf x) := by
  obtain ⟨hexponent, hfraction⟩ := fields_of_beq_zero h
  cases unpacked x with
  | undefined hlast | infinite hlast =>
    rw [hexponent] at hlast
    exact absurd hlast (by decide)
  | nought _ _ hunpack => exact hunpack
  | finite hpos =>
    rw [floatParts_eq, if_pos hexponent, hfraction] at hpos
    exact absurd hpos (lt_irrefl 0)

theorem isFinite_of_beq_zero (h : (x == 0.0) = true) : x.isFinite = true := by
  rw [isFinite_iff, (fields_of_beq_zero h).1]
  decide

theorem beq_zero_of_bits {s : UnpackedFloat.Sign}
    (h : bits x = UnpackedFloat.pack Format.binary64 (.zero s)) : (x == 0.0) = true := by
  refine beq_zero_iff.mpr ?_
  cases s with
  | positive => exact .inl (eq_of_bits_eq h)
  | negative => exact .inr (eq_of_bits_eq h)

/-- A double is the number that it is unpacked to, in an exact operation. -/
theorem eq_of_bits_pack (hx : x.isFinite = true)
    (h : bits y = UnpackedFloat.pack Format.binary64 x.toModel.unpack) : y = x :=
  eq_of_bits_eq (h.trans (pack_unpack hx))

/-- A finite double is a nought or has digits that fit. -/
inductive Digits (x : Float) : Prop
  | nought : (x == 0.0) = true → x.toModel.unpack = .zero (signOf x) → Digits x
  | fit (h : Fits (floatParts x).1 (floatParts x).2) :
    x.toModel.unpack = .finite (signOf x) (floatParts x).1 (floatParts x).2 h.pos → Digits x

theorem digits (h : x.isFinite = true) : Digits x := by
  cases unpackedFinite h with
  | nought _ _ hunpack => exact .nought (beq_zero_of_unpack hunpack) hunpack
  | finite hpos _ hunpack => exact .fit (.floatParts h hpos) hunpack

/-- A factor with the digits of one changes no more than the sign. -/
theorem mul_sign (h : x.isFinite = true) (s : UnpackedFloat.Sign) (hpos : 0 < 2 ^ 52) :
    UnpackedFloat.mul Format.binary64 (.finite s (2 ^ 52) (-52) hpos) x.toModel.unpack =
      match s with
      | .positive => x.toModel.unpack
      | .negative => x.toModel.unpack.neg := by
  cases digits h with
  | nought _ hunpack =>
    rw [hunpack]
    cases s <;> cases signOf x <;> rfl
  | fit hfits hunpack =>
    have hround : UnpackedFloat.mul Format.binary64 (.finite s (2 ^ 52) (-52) hpos)
        x.toModel.unpack = .finite (s * signOf x) (floatParts x).1 (floatParts x).2 hfits.pos := by
      have hexponent : -52 + (floatParts x).2 = (floatParts x).2 - (52 : ℕ) := by omega
      rw [← roundWithAccuracy_exact hfits 52, ← hexponent, Nat.mul_comm, hunpack]
      rfl
    rw [hround, hunpack]
    cases s <;> cases signOf x <;> rfl

protected theorem one_mul (h : x.isFinite = true) : 1.0 * x = x := by
  obtain ⟨hpos, hone⟩ := unpack_one
  refine eq_of_bits_pack h (congrArg (UnpackedFloat.pack Format.binary64) ?_)
  show UnpackedFloat.mul Format.binary64 (1.0 : Float).toModel.unpack x.toModel.unpack = _
  rw [hone, mul_sign h]

/-- The product with minus one is the negative. -/
theorem minus_one_mul (h : x.isFinite = true) : -1.0 * x = -x := by
  have hone : (-1.0 : Float).toModel.unpack = .finite .negative (2 ^ 52) (-52) (by norm_num) := by
    rfl
  refine eq_of_bits_eq (congrArg (UnpackedFloat.pack Format.binary64) ?_)
  show UnpackedFloat.mul Format.binary64 (-1.0 : Float).toModel.unpack x.toModel.unpack = _
  rw [hone, mul_sign h]

protected theorem mul_comm (x y : Float) : x * y = y * x := by
  refine eq_of_bits_eq (congrArg (UnpackedFloat.pack Format.binary64) ?_)
  show UnpackedFloat.mul Format.binary64 x.toModel.unpack y.toModel.unpack =
    UnpackedFloat.mul Format.binary64 y.toModel.unpack x.toModel.unpack
  have hsign (s t : UnpackedFloat.Sign) : s * t = t * s := by
    cases s <;> cases t <;> rfl
  -- Only two numbers that are finite and not nought are rounded; the rest is the rule of signs.
  rcases x.toModel.unpack with s | _ | s | ⟨s, m, e, _⟩ <;>
    rcases y.toModel.unpack with t | _ | t | ⟨t, n, f, _⟩
  case finite.finite =>
    show roundWithAccuracy _ (s * t) (m * n) (e + f) .exact =
      roundWithAccuracy _ (t * s) (n * m) (f + e) .exact
    rw [hsign, Nat.mul_comm, Int.add_comm]
  all_goals first
    | rfl
    | exact congrArg UnpackedFloat.infinity (hsign _ _)
    | exact congrArg UnpackedFloat.zero (hsign _ _)

protected theorem mul_one (h : x.isFinite = true) : x * 1.0 = x :=
  (Double.mul_comm x 1.0).trans (Double.one_mul h)

theorem nought_mul (hz : (z == 0.0) = true) (hx : x.isFinite = true) : (z * x == 0.0) = true := by
  have hbits : bits (z * x) = UnpackedFloat.pack Format.binary64
      (UnpackedFloat.mul Format.binary64 z.toModel.unpack x.toModel.unpack) := rfl
  rw [unpack_of_beq_zero hz] at hbits
  cases digits hx with
  | nought _ hunpack | fit _ hunpack =>
    rw [hunpack] at hbits
    exact beq_zero_of_bits hbits

theorem mul_nought (hx : x.isFinite = true) (hz : (z == 0.0) = true) : (x * z == 0.0) = true := by
  rw [Double.mul_comm]
  exact nought_mul hz hx

/-- An operation that keeps digits and makes noughts of noughts gives the same double. -/
theorem same_of_bits (hx : x.isFinite = true) (op : UnpackedFloat → UnpackedFloat)
    (hbits : bits y = UnpackedFloat.pack Format.binary64 (op x.toModel.unpack))
    (hzero : ∀ s, ∃ r, op (.zero s) = .zero r)
    (hfit : ∀ s m e h, op (.finite s m e h) = .finite s m e h) : Same y x := by
  cases digits hx with
  | nought hnought hunpack =>
    obtain ⟨r, hr⟩ := hzero (signOf x)
    rw [hunpack, hr] at hbits
    exact .inr ⟨beq_zero_of_bits hbits, hnought⟩
  | fit _ hunpack =>
    rw [hunpack, hfit, ← hunpack] at hbits
    exact .inl (eq_of_bits_pack hx hbits)

theorem add_nought (hx : x.isFinite = true) (hz : (z == 0.0) = true) : Same (x + z) x := by
  refine same_of_bits hx (fun u => UnpackedFloat.add Format.binary64 u (.zero (signOf z))) ?_ ?_ ?_
  · rw [← unpack_of_beq_zero hz]
    rfl
  · intro s
    cases s <;> cases signOf z <;> exact ⟨_, rfl⟩
  · intros
    rfl

theorem nought_add (hz : (z == 0.0) = true) (hx : x.isFinite = true) : Same (z + x) x := by
  refine same_of_bits hx (fun u => UnpackedFloat.add Format.binary64 (.zero (signOf z)) u) ?_ ?_ ?_
  · rw [← unpack_of_beq_zero hz]
    rfl
  · intro s
    cases s <;> cases signOf z <;> exact ⟨_, rfl⟩
  · intros
    rfl

theorem sub_nought (hx : x.isFinite = true) (hz : (z == 0.0) = true) : Same (x - z) x := by
  refine same_of_bits hx (fun u => UnpackedFloat.sub Format.binary64 u (.zero (signOf z))) ?_ ?_ ?_
  · rw [← unpack_of_beq_zero hz]
    rfl
  · intro s
    cases s <;> cases signOf z <;> exact ⟨_, rfl⟩
  · intros
    rfl

end

end Double

end QuantumGates
