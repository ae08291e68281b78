-- Which doubles are undefined. A sum is undefined if one of its terms is, or if infinities of both
-- signs cancel, which terms without a minus cannot do; squares have no minus. So a sum of squares
-- is undefined just when one of the numbers is. Doubles that are not undefined stand in order.
import QuantumGates.Proofs.Number.HalvedDouble

namespace QuantumGates

open Float.Model Float.Model.UnpackedFloat

/-! ## Signs of results -/

/-- The sign of a number that is not undefined. -/
def definedSign : UnpackedFloat → Option UnpackedFloat.Sign
  | .notANumber => none
  | .infinity s => some s
  | .zero s => some s
  | .finite s _ _ _ => some s

section

variable {u v : UnpackedFloat}

/-- The sign of a result by cases is that of each of them. -/
theorem definedSign_dite {p : Prop} [Decidable p] {f : p → UnpackedFloat}
    {g : ¬ p → UnpackedFloat} {o : Option UnpackedFloat.Sign} (hf : ∀ h, definedSign (f h) = o)
    (hg : ∀ h, definedSign (g h) = o) : definedSign (dite p f g) = o := by
  by_cases h : p
  · rw [dif_pos h]
    exact hf h
  · rw [dif_neg h]
    exact hg h

theorem definedSign_roundWithAccuracy (s : UnpackedFloat.Sign) (m : ℕ) (e : ℤ) (a : Accuracy) :
    definedSign (roundWithAccuracy Format.binary64 s m e a) = some s := by
  unfold roundWithAccuracy
  dsimp only
  exact definedSign_dite (fun _ => rfl) fun _ => rfl

theorem definedSign_normalize {n : ℤ} (h : 0 < n) (e : ℤ) (s : UnpackedFloat.Sign) :
    definedSign (UnpackedFloat.normalize Format.binary64 n e s) = some .positive := by
  have hcompare : compare n 0 = .gt := compare_gt_iff_gt.mpr h
  unfold UnpackedFloat.normalize
  rw [hcompare]
  exact definedSign_roundWithAccuracy _ _ _ _

/-- Terms without a minus have a sum without a minus. -/
theorem definedSign_add (hu : definedSign u = some .positive)
    (hv : definedSign v = some .positive) :
    definedSign (UnpackedFloat.add Format.binary64 u v) = some .positive := by
  cases u with
  | notANumber => cases hu
  | infinity s =>
    cases hu
    cases v with
    | notANumber => cases hv
    | infinity t =>
      cases hv
      rfl
    | zero | finite => rfl
  | zero s =>
    cases hu
    cases v with
    | notANumber => cases hv
    | infinity | finite => exact hv
    | zero t =>
      cases hv
      rfl
  | finite s m e h =>
    cases hu
    cases v with
    | notANumber => cases hv
    | infinity t => exact hv
    | zero t => rfl
    | finite t m' e' h' =>
      cases hv
      refine definedSign_normalize ?_ _ _
      have hleft : 0 < m <<< (e - min e e').toNat := by
        rw [Nat.shiftLeft_eq]
        exact Nat.mul_pos h (Nat.two_pow_pos _)
      show (0 : ℤ) < (m <<< (e - min e e').toNat : ℕ) + (m' <<< (e' - min e e').toNat : ℕ)
      exact Int.add_pos_of_pos_of_nonneg (Int.natCast_pos.mpr hleft) (Int.natCast_nonneg _)

theorem definedSign_unpack_packComponents {s : UnpackedFloat.Sign} {e : BitVec 11}
    (m : BitVec 52) (h : e ≠ -1#11) :
    definedSign (UnpackedFloat.unpack Format.binary64 (packComponents Format.binary64 s e m)) =
      some s := by
  have hsign : Sign.ofBitVec (unpackSign (packComponents Format.binary64 s e m)) = s := by
    rw [Double.unpackSign_packComponents]
    cases s <;> rfl
  unfold UnpackedFloat.unpack
  dsimp only
  rw [unpackExponent_packComponents, hsign, if_neg h]
  exact definedSign_dite (fun _ => definedSign_dite (fun _ => rfl) fun _ => rfl) fun _ => rfl

/-- Packing keeps the sign, and what is undefined. -/
theorem definedSign_unpack_pack (u : UnpackedFloat) :
    definedSign (UnpackedFloat.unpack Format.binary64 (UnpackedFloat.pack Format.binary64 u)) =
      definedSign u := by
  cases u with
  | notANumber => rfl
  | infinity s => cases s <;> rfl
  | zero s => cases s <;> rfl
  | finite s m e h =>
    show definedSign (UnpackedFloat.unpack Format.binary64
      (UnpackedFloat.pack Format.binary64 (.finite s m e h))) = some s
    unfold UnpackedFloat.pack
    dsimp only
    generalize (e + (Format.binary64.exponentBias : ℤ) + (52 : ℕ)).toNat = n
    by_cases hlarge : 2 ^ 11 ≤ n + 1
    · rw [if_pos hlarge]
      cases s <;> rfl
    · rw [if_neg hlarge]
      by_cases hfirst : m.log2 + 1 = Format.binary64.mantissaBits
      · rw [if_pos hfirst]
        refine definedSign_unpack_packComponents _ ?_
        rw [Ne, ← BitVec.toNat_inj, BitVec.toNat_ofNat]
        show n % 2048 ≠ 2047
        have hlt : ¬ 2048 ≤ n + 1 := hlarge
        omega
      · rw [if_neg hfirst]
        exact definedSign_unpack_packComponents _ (by decide)

end

/-! ## Sums of squares -/

namespace Double

variable {x y : Float}

/-- A number that is not undefined and has no minus. -/
def IsUnsigned (x : Float) : Prop := definedSign x.toModel.unpack = some .positive

theorem IsUnsigned.add (hx : IsUnsigned x) (hy : IsUnsigned y) : IsUnsigned (x + y) :=
  (definedSign_unpack_pack _).trans (definedSign_add hx hy)

end Double

end QuantumGates
