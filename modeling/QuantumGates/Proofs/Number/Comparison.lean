-- Doubles compared without loss. Two finite doubles are equal just when they are the same number:
-- then they have the same bits, or both are noughts. So comparing the numbers that doubles are
-- read as without loss comes to comparing the doubles.
import QuantumGates.Datum.Key
import QuantumGates.Proofs.Number.ReadBack

namespace QuantumGates

open Float.Model Float.Model.UnpackedFloat

namespace Double

variable {x y : Float}

/-- Doubles with the same magnitude and sign are the same. -/
theorem eq_of_floatParts_eq (hparts : floatParts x = floatParts y) (hsign : signOf x = signOf y) :
    x = y := by
  have hlow : x.toBits.toNat % 2 ^ 63 = y.toBits.toNat % 2 ^ 63 := by
    rw [← toNat_mod_eq, ← toNat_mod_eq, hparts]
  have hminus : isNegativeFloat x = isNegativeFloat y := by
    rw [Bool.eq_iff_iff, isNegativeFloat_iff, isNegativeFloat_iff, hsign]
  have hhigh : x.toBits.toNat / 2 ^ 63 = 1 ↔ y.toBits.toNat / 2 ^ 63 = 1 :=
    decide_eq_decide.mp hminus
  have hx : x.toBits.toNat < 2 ^ 64 := x.toBits.toBitVec.isLt
  have hy : y.toBits.toNat < 2 ^ 64 := y.toBits.toBitVec.isLt
  exact eq_of_toBits_eq (UInt64.toNat_inj.mp (by omega))

theorem beq_zero_of_unpack {s : UnpackedFloat.Sign} (h : x.toModel.unpack = .zero s) :
    (x == 0.0) = true := by
  rw [beq_eq, unpack_zero, h]
  rfl

/-- Finite doubles that are equal are the same, or noughts. -/
theorem eq_or_zero_of_beq (hx : x.isFinite = true) (hy : y.isFinite = true)
    (h : (x == y) = true) : x = y ∨ (x == 0.0) = true ∧ (y == 0.0) = true := by
  rw [beq_eq] at h
  cases unpackedFinite hx with
  | nought _ _ hunpackx =>
    cases unpackedFinite hy with
    | nought _ _ hunpacky => exact .inr ⟨beq_zero_of_unpack hunpackx, beq_zero_of_unpack hunpacky⟩
    | finite _ _ hunpacky =>
      rw [hunpackx, hunpacky] at h
      cases hs : signOf y <;> rw [hs] at h <;> cases h
  | finite hposx _ hunpackx =>
    cases unpackedFinite hy with
    | nought _ _ hunpacky =>
      rw [hunpackx, hunpacky] at h
      cases hs : signOf x <;> rw [hs] at h <;> cases h
    | finite hposy _ hunpacky =>
      rw [hunpackx, hunpacky] at h
      obtain ⟨hsign, hdigits, hexponent⟩ := eq_of_compare_finite (beq_iff_eq.mp h)
      exact .inl (eq_of_floatParts_eq (Prod.ext hdigits hexponent) hsign)

theorem isNaN_of_isFinite (h : x.isFinite = true) : x.isNaN = false := by
  have hfinite : x.isFinite = x.toModel.unpack.isFinite := rfl
  have hnan : x.isNaN = x.toModel.unpack.isNaN := rfl
  rw [hfinite] at h
  rw [hnan]
  cases hx : x.toModel.unpack with
  | notANumber =>
    rw [hx] at h
    cases h
  | infinity | zero | finite => rfl

/-- The two noughts are equal. -/
theorem beq_of_beq_zero (hx : (x == 0.0) = true) (hy : (y == 0.0) = true) : (x == y) = true := by
  rcases beq_zero_iff.mp hx with rfl | rfl <;>
    rcases beq_zero_iff.mp hy with rfl | rfl <;> decide

end Double

/-- Finite doubles are equal just when they are the same number. -/
theorem BigFloat.normal_ofFloat_inj {x y : Float} (hx : x.isFinite = true)
    (hy : y.isFinite = true) :
    (ofFloat x).normal = (ofFloat y).normal ↔ (x == y) = true := by
  have hread {z : Float} (hz : z.isFinite = true) :
      (ofFloat z).normal.toFloat = if z == 0.0 then 0.0 else z := by
    rw [← toFloat_round_ofFloat hz, round_eq_normal (bitLength_ofFloat_le hz)]
  have hzero : ((0.0 : Float) == 0.0) = true := by decide
  constructor
  · intro h
    have hsame := congrArg toFloat h
    rw [hread hx, hread hy] at hsame
    by_cases hxzero : (x == 0.0) = true
    · refine Double.beq_of_beq_zero hxzero ?_
      by_contra hy
      rw [if_pos hxzero, if_neg hy] at hsame
      exact hy (hsame ▸ hzero)
    · by_cases hyzero : (y == 0.0) = true
      · rw [if_neg hxzero, if_pos hyzero] at hsame
        exact absurd (hsame ▸ hzero) hxzero
      · rw [if_neg hxzero, if_neg hyzero] at hsame
        rw [← hsame, Double.beq_self, Double.isNaN_of_isFinite hx]
        rfl
  · intro h
    rcases Double.eq_or_zero_of_beq hx hy h with rfl | ⟨hxzero, hyzero⟩
    · rfl
    · rcases Double.beq_zero_iff.mp hxzero with rfl | rfl <;>
        rcases Double.beq_zero_iff.mp hyzero with rfl | rfl <;> decide

namespace Exact

/-- What a double is read as, by what it is unpacked to. -/
inductive Reading (x : Float) : Prop
  | undefined : x.toModel.unpack = .notANumber → ofFloat x = .undefined → Reading x
  | infinite : x.toModel.unpack = .infinity (Double.signOf x) →
    ofFloat x = .infinite (isNegativeFloat x) → Reading x
  | finite : x.isFinite = true → ofFloat x = .finite (BigFloat.ofFloat x).normal → Reading x

theorem reading (x : Float) : Reading x := by
  have hread : ofFloat x = if x.toModel.unpack.isNaN then .undefined
    else if x.toModel.unpack.isInf then .infinite (isNegativeFloat x)
    else .finite (BigFloat.ofFloat x).normal := rfl
  cases Double.unpacked x with
  | undefined hlast hunpack =>
    rw [hunpack] at hread
    exact .undefined hunpack hread
  | infinite hlast hunpack =>
    rw [hunpack] at hread
    exact .infinite hunpack hread
  | nought hexponent hfraction hunpack =>
    rw [hunpack] at hread
    exact .finite ((Double.isFinite_iff x).mpr (by rw [hexponent]; decide)) hread
  | finite hpos hlast hunpack =>
    rw [hunpack] at hread
    exact .finite ((Double.isFinite_iff x).mpr hlast) hread

/-- Infinite doubles are equal when both are negative or none is. -/
theorem compare_infinity_iff (s t : UnpackedFloat.Sign) :
    (UnpackedFloat.infinity s).compare (.infinity t) = some .eq ↔
      (s = .negative ↔ t = .negative) := by
  cases s with
  | negative =>
    cases t with
    | negative => exact iff_of_true rfl Iff.rfl
    | positive => exact iff_of_false nofun fun h => nomatch h.mp rfl
  | positive =>
    cases t with
    | negative => exact iff_of_false nofun fun h => nomatch h.mpr rfl
    | positive => exact iff_of_true rfl Iff.rfl

/-- An infinite double is equal to no finite one. -/
theorem compare_infinity_ne {s : UnpackedFloat.Sign} {u : UnpackedFloat} (h : u.isFinite = true) :
    (UnpackedFloat.infinity s).compare u ≠ some .eq ∧ u.compare (.infinity s) ≠ some .eq := by
  cases u with
  | notANumber | infinity => cases h
  | zero | finite => cases s <;> exact ⟨nofun, nofun⟩

/-- Doubles are compared as the numbers that they are read as. -/
theorem equal_ofFloat (x y : Float) : (ofFloat x).equal (ofFloat y) = (x == y) := by
  rw [Double.beq_eq, Bool.eq_iff_iff, beq_iff_eq]
  cases reading x with
  | undefined hx hreadx =>
    rw [hreadx, hx]
    exact iff_of_false nofun nofun
  | infinite hx hreadx =>
    cases reading y with
    | undefined hy hready =>
      rw [hreadx, hready, hx, hy]
      exact iff_of_false nofun nofun
    | infinite hy hready =>
      rw [hreadx, hready, hx, hy, compare_infinity_iff]
      show (Exact.infinite _ == Exact.infinite _) = true ↔ _
      rw [beq_iff_eq, Exact.infinite.injEq, Bool.eq_iff_iff, Double.isNegativeFloat_iff,
        Double.isNegativeFloat_iff]
    | finite hy hready =>
      rw [hreadx, hready, hx]
      exact iff_of_false nofun (compare_infinity_ne hy).1
  | finite hx hreadx =>
    cases reading y with
    | undefined hy hready =>
      rw [hreadx, hready, hy]
      refine iff_of_false nofun ?_
      cases x.toModel.unpack <;> exact nofun
    | infinite hy hready =>
      rw [hreadx, hready, hy]
      exact iff_of_false nofun (compare_infinity_ne hx).2
    | finite hy hready =>
      have hsame := BigFloat.normal_ofFloat_inj hx hy
      rw [Double.beq_eq, beq_iff_eq] at hsame
      rw [hreadx, hready, ← hsame]
      show (Exact.finite _ == Exact.finite _) = true ↔ _
      rw [beq_iff_eq, Exact.finite.injEq]

end Exact

end QuantumGates
