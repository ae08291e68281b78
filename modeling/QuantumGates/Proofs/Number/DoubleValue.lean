-- The real number that a finite double is: its magnitude with its sign. The parts of a double are
-- read off its bits, and so is the number that comparisons and negation work with. Noughts of both
-- signs are the real number nought, only one double is the real number one, and the negated double
-- is the negated real number.
import Mathlib.Data.Real.Basic
import QuantumGates.Number.Decimal

namespace QuantumGates

open Float.Model Float.Model.UnpackedFloat

namespace Double

/-! ## The fields of a double -/

/-- The bits of a double. -/
def bits (x : Float) : BitVec 64 := x.toModel.toBits.toBitVec

/-- The exponent among the bits. -/
def exponentField (x : Float) : BitVec 11 := @unpackExponent Format.binary64 (bits x)

/-- The digits after the first one among the bits. -/
def fractionField (x : Float) : BitVec 52 := @unpackMantissa Format.binary64 (bits x)

/-- The first bit. -/
def signField (x : Float) : BitVec 1 := @unpackSign Format.binary64 (bits x)

theorem toNat_exponentField (x : Float) :
    (exponentField x).toNat = x.toBits.toNat / 2 ^ 52 % 2048 := by
  unfold exponentField unpackExponent bits
  simp [BitVec.extractLsb, Nat.shiftRight_eq_div_pow]
  rfl

theorem toNat_fractionField (x : Float) : (fractionField x).toNat = x.toBits.toNat % 2 ^ 52 := by
  unfold fractionField unpackMantissa bits
  simp [BitVec.extractLsb]
  rfl

theorem toNat_signField (x : Float) : (signField x).toNat = x.toBits.toNat / 2 ^ 63 := by
  have hlt : x.toBits.toNat < 2 ^ 64 := x.toBits.toBitVec.isLt
  have hfield : (signField x).toNat = x.toBits.toNat / 2 ^ 63 % 2 := by
    unfold signField unpackSign bits
    simp [BitVec.extractLsb, Nat.shiftRight_eq_div_pow]
    rfl
  omega

theorem exponentField_eq_zero_iff (x : Float) :
    exponentField x = 0 ↔ x.toBits.toNat / 2 ^ 52 % 2048 = 0 := by
  rw [← BitVec.toNat_inj, toNat_exponentField]
  rfl

theorem floatParts_eq (x : Float) : floatParts x =
    if exponentField x = 0 then ((fractionField x).toNat, -1074)
    else ((fractionField x).toNat + 2 ^ 52, ((exponentField x).toNat : ℤ) - 1075) := by
  have hpow : Nat.pow 2 52 = 2 ^ 52 := rfl
  unfold floatParts
  simp only [hpow, exponentField_eq_zero_iff, toNat_fractionField, toNat_exponentField]

theorem isNegativeFloat_eq (x : Float) : isNegativeFloat x = decide (signField x = 1) := by
  have hpow : Nat.pow 2 63 = 2 ^ 63 := rfl
  have hiff : signField x = 1 ↔ x.toBits.toNat / 2 ^ 63 = 1 := by
    rw [← BitVec.toNat_inj, toNat_signField]
    rfl
  unfold isNegativeFloat
  rw [hpow, decide_eq_decide.mpr hiff]
  rfl

/-! ## The number that operations work with -/

/-- The sign of a double. -/
def signOf (x : Float) : Sign := Sign.ofBitVec (signField x)

theorem isNegativeFloat_iff (x : Float) : isNegativeFloat x = true ↔ signOf x = .negative := by
  rw [isNegativeFloat_eq, decide_eq_true_iff]
  unfold signOf Sign.ofBitVec
  by_cases hzero : signField x = 0#1
  · rw [if_pos hzero, hzero]
    exact iff_of_false (by decide) nofun
  · rw [if_neg hzero]
    have hone : signField x = 1#1 := by
      have hlt := (signField x).isLt
      rw [← BitVec.toNat_inj] at hzero ⊢
      simp only [BitVec.toNat_ofNat] at hzero ⊢
      omega
    exact iff_of_true hone rfl

/-- The digits with the one before them. -/
theorem toNat_one_append (m : BitVec 52) : (1#1 ++ m).toNat = m.toNat + 2 ^ 52 := by
  rw [BitVec.toNat_append, ← Nat.shiftLeft_add_eq_or_of_lt m.isLt, Nat.shiftLeft_eq]
  exact Nat.add_comm _ _

theorem finite_congr {s : Sign} {m m' : ℕ} {e e' : ℤ} {h : 0 < m} (h' : 0 < m') (hm : m = m')
    (he : e = e') : UnpackedFloat.finite s m e h = .finite s m' e' h' := by
  subst hm he
  rfl

/-- What a double is unpacked to, by its fields. -/
inductive Unpacked (x : Float) : Prop
  | undefined : exponentField x = -1 → x.toModel.unpack = .notANumber → Unpacked x
  | infinite : exponentField x = -1 → x.toModel.unpack = .infinity (signOf x) → Unpacked x
  | nought : exponentField x = 0 → fractionField x = 0 →
    x.toModel.unpack = .zero (signOf x) → Unpacked x
  | finite (h : 0 < (floatParts x).1) : exponentField x ≠ -1 →
    x.toModel.unpack = .finite (signOf x) (floatParts x).1 (floatParts x).2 h → Unpacked x

/-- The magnitude of a double is positive unless both of its fields are nought. -/
theorem floatParts_pos {x : Float} (h : exponentField x ≠ 0 ∨ fractionField x ≠ 0) :
    0 < (floatParts x).1 := by
  rw [floatParts_eq]
  split
  · rename_i hzero
    have hfraction := h.resolve_left (not_not_intro hzero)
    rw [Ne, ← BitVec.toNat_inj] at hfraction
    exact Nat.pos_of_ne_zero hfraction
  · exact Nat.add_pos_right _ (by norm_num)

theorem unpacked (x : Float) : Unpacked x := by
  have hunpack : x.toModel.unpack = UnpackedFloat.unpack Format.binary64 (bits x) := rfl
  have hparts := floatParts_eq x
  unfold UnpackedFloat.unpack at hunpack
  dsimp only at hunpack
  by_cases hlast : exponentField x = -1
  · replace hunpack := hunpack.trans (if_pos hlast)
    by_cases hfraction : fractionField x = 0
    · exact .infinite hlast (hunpack.trans (if_pos hfraction))
    · exact .undefined hlast (hunpack.trans (if_neg hfraction))
  · replace hunpack := hunpack.trans (if_neg hlast)
    by_cases hexponent : exponentField x = 0
    · replace hunpack := hunpack.trans (if_pos hexponent)
      by_cases hfraction : fractionField x = 0
      · exact .nought hexponent hfraction (hunpack.trans (dif_pos hfraction))
      · have hpos : 0 < (floatParts x).1 := floatParts_pos (.inr hfraction)
        rw [if_pos hexponent] at hparts
        refine .finite hpos hlast ((hunpack.trans (dif_neg hfraction)).trans
          (finite_congr hpos ?_ ?_))
        · rw [hparts]
          rfl
        · rw [hparts]
          show ((exponentField x).toNat : ℤ) - 1075 + 1 = -1074
          rw [hexponent]
          rfl
    · have hpos : 0 < (floatParts x).1 := floatParts_pos (.inl hexponent)
      rw [if_neg hexponent] at hparts
      refine .finite hpos hlast ((hunpack.trans (if_neg hexponent)).trans
        (finite_congr hpos ?_ ?_))
      · rw [hparts]
        exact toNat_one_append _
      · rw [hparts]
        rfl

theorem isFinite_iff (x : Float) : x.isFinite = true ↔ exponentField x ≠ -1 := by
  have hfinite : x.isFinite = x.toModel.unpack.isFinite := rfl
  cases unpacked x with
  | undefined hlast hx =>
    rw [hfinite, hx]
    exact iff_of_false nofun (not_not_intro hlast)
  | infinite hlast hx =>
    rw [hfinite, hx]
    exact iff_of_false nofun (not_not_intro hlast)
  | nought hexponent _ hx =>
    rw [hfinite, hx, hexponent]
    exact iff_of_true rfl (by decide)
  | finite _ hlast hx =>
    rw [hfinite, hx]
    exact iff_of_true rfl hlast

/-- What a finite double is unpacked to, by its fields. -/
inductive UnpackedFinite (x : Float) : Prop
  | nought : exponentField x = 0 → fractionField x = 0 →
    x.toModel.unpack = .zero (signOf x) → UnpackedFinite x
  | finite (h : 0 < (floatParts x).1) : exponentField x ≠ -1 →
    x.toModel.unpack = .finite (signOf x) (floatParts x).1 (floatParts x).2 h → UnpackedFinite x

theorem unpackedFinite {x : Float} (h : x.isFinite = true) : UnpackedFinite x := by
  have hmost := (isFinite_iff x).mp h
  cases unpacked x with
  | undefined hlast | infinite hlast => exact absurd hlast hmost
  | nought hexponent hfraction hx => exact .nought hexponent hfraction hx
  | finite hpos hlast hx => exact .finite hpos hlast hx

theorem eq_of_toBits_eq {x y : Float} (h : x.toBits = y.toBits) : x = y := by
  obtain ⟨⟨b, hb⟩⟩ := x
  obtain ⟨⟨b', hb'⟩⟩ := y
  cases h
  rfl

/-! ## Comparison -/

theorem beq_eq (x y : Float) :
    (x == y) = (x.toModel.unpack.compare y.toModel.unpack == some .eq) := rfl

/-- Finite numbers compare as equal only if they have the same sign, digits and exponent. -/
theorem eq_of_compare_finite {s s' : UnpackedFloat.Sign} {m m' : ℕ} {e e' : ℤ} {h : 0 < m}
    {h' : 0 < m'} (hcompare : (UnpackedFloat.finite s m e h).compare (.finite s' m' e' h') =
      some .eq) : s = s' ∧ m = m' ∧ e = e' := by
  have hparts (hthen : (compare e e').then (compare m m') = .eq) : m = m' ∧ e = e' := by
    obtain ⟨hexponent, hdigits⟩ := Ordering.then_eq_eq.mp hthen
    exact ⟨compare_eq_iff_eq.mp hdigits, compare_eq_iff_eq.mp hexponent⟩
  cases s with
  | positive =>
    cases s' with
    | positive => exact ⟨rfl, hparts (Option.some.inj hcompare)⟩
    | negative => cases hcompare
  | negative =>
    cases s' with
    | positive => cases hcompare
    | negative =>
      refine ⟨rfl, hparts ?_⟩
      exact Ordering.swap_eq_eq.mp (Option.some.inj hcompare)

/-- Every number but an undefined one is equal to itself. -/
theorem beq_self (x : Float) : (x == x) = !x.isNaN := by
  have hnan : x.isNaN = x.toModel.unpack.isNaN := rfl
  rw [beq_eq, hnan]
  cases x.toModel.unpack with
  | notANumber => rfl
  | infinity s => cases s <;> rfl
  | zero s => rfl
  | finite s m e h =>
    have hexponent : Ord.compare e e = .eq := Std.ReflOrd.compare_self
    have hdigits : Ord.compare m m = .eq := Std.ReflOrd.compare_self
    cases s with
    | positive =>
      show (some ((Ord.compare e e).then (Ord.compare m m)) == some .eq) = true
      rw [hexponent, hdigits]
      rfl
    | negative =>
      show (some ((Ord.compare e e).then (Ord.compare m m)).swap == some .eq) = true
      rw [hexponent, hdigits]
      rfl

theorem unpack_zero : (0.0 : Float).toModel.unpack = .zero .positive := by rfl

theorem unpack_one : ∃ h, (1.0 : Float).toModel.unpack = .finite .positive (2 ^ 52) (-52) h :=
  ⟨by norm_num, by rfl⟩

/-- A number equal to nought has both of its fields nought. -/
theorem fields_of_beq_zero {x : Float} (h : (x == 0.0) = true) :
    exponentField x = 0 ∧ fractionField x = 0 := by
  rw [beq_eq, unpack_zero] at h
  cases unpacked x with
  | undefined _ hx =>
    rw [hx] at h
    cases h
  | infinite _ hx =>
    rw [hx] at h
    cases hs : signOf x <;> rw [hs] at h <;> cases h
  | nought hexponent hfraction => exact ⟨hexponent, hfraction⟩
  | finite hpos _ hx =>
    rw [hx] at h
    cases hs : signOf x <;> rw [hs] at h <;> cases h

/-- A number equal to one has the magnitude one and no minus. -/
theorem parts_of_beq_one {x : Float} (h : (x == 1.0) = true) :
    floatParts x = (2 ^ 52, -52) ∧ isNegativeFloat x = false := by
  obtain ⟨hone, hunpack⟩ := unpack_one
  rw [beq_eq, hunpack] at h
  cases unpacked x with
  | undefined _ hx =>
    rw [hx] at h
    cases h
  | infinite _ hx =>
    rw [hx] at h
    cases hs : signOf x <;> rw [hs] at h <;> cases h
  | nought _ _ hx =>
    rw [hx] at h
    cases hs : signOf x <;> rw [hs] at h <;> cases h
  | finite hpos _ hx =>
    rw [hx] at h
    obtain ⟨hsign, hdigits, hexponent⟩ := eq_of_compare_finite (beq_iff_eq.mp h)
    refine ⟨Prod.ext hdigits hexponent, ?_⟩
    rw [Bool.eq_false_iff, Ne, isNegativeFloat_iff, hsign]
    exact nofun

/-! ## Negation -/

theorem bits_neg_eq_pack (x : Float) :
    bits (-x) = UnpackedFloat.pack Format.binary64 x.toModel.unpack.neg := rfl

/-- The first digit of the magnitude is the one before the fraction, if there is one. -/
theorem log2_floatParts (x : Float) :
    (floatParts x).1.log2 + 1 = Format.binary64.mantissaBits ↔ exponentField x ≠ 0 := by
  show (floatParts x).1.log2 + 1 = 53 ↔ _
  have hlt := (fractionField x).isLt
  rw [floatParts_eq]
  split
  · rename_i hexponent
    refine iff_of_false (fun hlog => ?_) (not_not_intro hexponent)
    have hlog' : (fractionField x).toNat.log2 = 52 := Nat.succ.inj hlog
    have hne : (fractionField x).toNat ≠ 0 := by
      intro hzero
      rw [hzero] at hlog'
      cases hlog'
    have hle := Nat.log2_self_le hne
    rw [hlog'] at hle
    omega
  · rename_i hexponent
    have hlog : ((fractionField x).toNat + 2 ^ 52).log2 = 52 :=
      (Nat.log2_eq_iff (by omega)).mpr ⟨by omega, by omega⟩
    exact iff_of_true (by simp only [hlog]) hexponent

/-- The magnitude of a double is packed into its own fields, whatever the sign. -/
theorem pack_floatParts {x : Float} (hlast : exponentField x ≠ -1) (hpos : 0 < (floatParts x).1)
    (s : UnpackedFloat.Sign) :
    UnpackedFloat.pack Format.binary64 (.finite s (floatParts x).1 (floatParts x).2 hpos) =
      packComponents Format.binary64 s (exponentField x) (fractionField x) := by
  have hparts := floatParts_eq x
  unfold UnpackedFloat.pack
  dsimp only
  by_cases hexponent : exponentField x = 0
  · rw [if_pos hexponent] at hparts
    have hbiased :
        ((floatParts x).2 + (Format.binary64.exponentBias : ℤ) + (52 : ℕ)).toNat = 1 := by
      rw [hparts]
      rfl
    have hdigits : BitVec.ofNat 52 (floatParts x).1 = fractionField x := by
      rw [hparts, BitVec.ofNat_toNat, BitVec.setWidth_eq]
    rw [hbiased, if_neg (by decide), if_neg fun h => (log2_floatParts x).mp h hexponent, hdigits,
      hexponent]
    rfl
  · rw [if_neg hexponent] at hparts
    have hlast' : (exponentField x).toNat ≠ 2047 := by
      rw [Ne, ← BitVec.toNat_inj] at hlast
      exact hlast
    have hbiased : ((floatParts x).2 + (Format.binary64.exponentBias : ℤ) + (52 : ℕ)).toNat =
        (exponentField x).toNat := by
      rw [hparts]
      show (((exponentField x).toNat : ℤ) - 1075 + 1023 + 52).toNat = _
      omega
    have hlt := (exponentField x).isLt
    have hdigits : BitVec.ofNat 52 (floatParts x).1 = fractionField x := by
      rw [hparts, ← BitVec.toNat_inj, BitVec.toNat_ofNat, Nat.add_mod_right]
      exact Nat.mod_eq_of_lt (fractionField x).isLt
    rw [hbiased, if_neg (by omega), if_pos ((log2_floatParts x).mpr hexponent), hdigits,
      BitVec.ofNat_toNat, BitVec.setWidth_eq]

/-- Negation changes the first bit. -/
theorem bits_neg {x : Float} (h : x.isFinite = true) :
    bits (-x) = packComponents Format.binary64 (-signOf x) (exponentField x) (fractionField x) := by
  rw [bits_neg_eq_pack]
  cases unpackedFinite h with
  | nought hexponent hfraction hx =>
    rw [hx, hexponent, hfraction]
    rfl
  | finite hpos hlast hx =>
    rw [hx]
    exact pack_floatParts hlast hpos (-signOf x)

theorem unpackSign_packComponents (s : Sign) (e : BitVec 11) (m : BitVec 52) :
    unpackSign (packComponents Format.binary64 s e m) = s.toBitVec := by
  unfold unpackSign packComponents BitVec.extractLsb
  rw [BitVec.extractLsb'_append_eq_of_le (by decide),
    BitVec.extractLsb'_append_eq_of_le (by decide)]
  cases s <;> rfl

section

variable {x : Float}

theorem exponentField_neg (h : x.isFinite = true) : exponentField (-x) = exponentField x := by
  rw [exponentField, bits_neg h, unpackExponent_packComponents]

theorem fractionField_neg (h : x.isFinite = true) : fractionField (-x) = fractionField x := by
  rw [fractionField, bits_neg h, unpackMantissa_packComponents]

theorem signOf_neg (h : x.isFinite = true) : signOf (-x) = -signOf x := by
  rw [signOf, signField, bits_neg h, unpackSign_packComponents]
  cases signOf x <;> rfl

theorem isFinite_neg (h : x.isFinite = true) : (-x).isFinite = true := by
  rw [isFinite_iff, exponentField_neg h]
  exact (isFinite_iff x).mp h

theorem floatParts_neg (h : x.isFinite = true) : floatParts (-x) = floatParts x := by
  rw [floatParts_eq, floatParts_eq, exponentField_neg h, fractionField_neg h]

theorem isNegativeFloat_neg (h : x.isFinite = true) :
    isNegativeFloat (-x) = !isNegativeFloat x := by
  rw [Bool.eq_iff_iff, isNegativeFloat_iff, signOf_neg h, Bool.not_eq_true', ← Bool.not_eq_true,
    isNegativeFloat_iff]
  cases signOf x with
  | negative => exact iff_of_false nofun (not_not_intro rfl)
  | positive => exact iff_of_true rfl nofun

end

/-! ## Real numbers -/

/-- The magnitude of a finite double. -/
noncomputable def magnitude (x : Float) : ℝ := (floatParts x).1 * (2 : ℕ) ^ (floatParts x).2

/-- The real number that a finite double is. -/
noncomputable def real (x : Float) : ℝ := if isNegativeFloat x then -magnitude x else magnitude x

section

variable {x : Float}

theorem real_neg (h : x.isFinite = true) : real (-x) = -real x := by
  unfold real magnitude
  rw [isNegativeFloat_neg h, floatParts_neg h]
  cases isNegativeFloat x with
  | false => rfl
  | true => simp

theorem real_of_beq_zero (h : (x == 0.0) = true) : real x = 0 := by
  obtain ⟨hexponent, hfraction⟩ := fields_of_beq_zero h
  unfold real magnitude
  rw [floatParts_eq, if_pos hexponent, hfraction]
  simp

theorem real_of_beq_one (h : (x == 1.0) = true) : real x = 1 := by
  obtain ⟨hparts, hminus⟩ := parts_of_beq_one h
  unfold real magnitude
  rw [hparts, hminus]
  norm_num

/-- A number equal to nought is one of the two noughts. -/
theorem beq_zero_iff : (x == 0.0) = true ↔ x = 0.0 ∨ x = -0.0 := by
  constructor
  · intro h
    obtain ⟨hexponent, hfraction⟩ := fields_of_beq_zero h
    have hexponent' := (exponentField_eq_zero_iff x).mp hexponent
    have hfraction' := toNat_fractionField x
    rw [hfraction] at hfraction'
    change 0 = _ at hfraction'
    have hlt : x.toBits.toNat < 2 ^ 64 := x.toBits.toBitVec.isLt
    have hbits : x.toBits.toNat = 0 ∨ x.toBits.toNat = 2 ^ 63 := by omega
    exact hbits.imp (fun h => eq_of_toBits_eq (UInt64.toNat_inj.mp h))
      fun h => eq_of_toBits_eq (UInt64.toNat_inj.mp h)
  · rintro (rfl | rfl)
    · decide
    · decide

end

end Double

end QuantumGates
