-- Conjugation of complex numbers, and the numbers that matrices are built from: real ones, the
-- imaginary unit and the points of the unit circle. Every entry of a gate is a product of these,
-- so an equation between entries and conjugates is one of polynomials.
import QuantumGates.Gate.Unitary
import QuantumGates.Proofs.Exact.Numbers

namespace QuantumGates

open CMat

namespace Cplx

/-! ## Conjugation -/

/-- Conjugation keeps sums and products. -/
noncomputable def conjHom : Cplx ℝ →+* Cplx ℝ where
  toFun := conj
  map_one' := by ext <;> simp [conj]
  map_mul' a b := by ext <;> simp [conj]; ring
  map_zero' := by ext <;> simp [conj]
  map_add' a b := by ext <;> simp [conj]; ring

@[simp] theorem conjHom_apply (a : Cplx ℝ) : conjHom a = conj a := rfl

@[simp, grind =] theorem conj_zero : conj (0 : Cplx ℝ) = 0 := conjHom.map_zero
@[simp, grind =] theorem conj_one : conj (1 : Cplx ℝ) = 1 := conjHom.map_one
@[simp, grind =] theorem conj_neg (a : Cplx ℝ) : conj (-a) = -conj a := conjHom.map_neg a

@[simp, grind =] theorem conj_add (a b : Cplx ℝ) : conj (a + b) = conj a + conj b :=
  conjHom.map_add a b

@[simp, grind =] theorem conj_sub (a b : Cplx ℝ) : conj (a - b) = conj a - conj b :=
  conjHom.map_sub a b

@[simp, grind =] theorem conj_mul (a b : Cplx ℝ) : conj (a * b) = conj a * conj b :=
  conjHom.map_mul a b

@[simp, grind =] theorem conj_conj (a : Cplx ℝ) : conj (conj a) = a := by ext <;> simp [conj]

/-! ## Real and imaginary numbers -/

@[simp, grind =] theorem conj_real (x : ℝ) : conj (real x) = real x := by
  ext <;> simp [conj, real, ofReal]

@[simp, grind =] theorem conj_i : conj (i : Cplx ℝ) = -i := by ext <;> simp [conj, i]

theorem i_mul_i : (i : Cplx ℝ) * i = -1 := by ext <;> simp [i]

@[simp] theorem real_zero : real (0 : ℝ) = 0 := rfl
@[simp, grind =] theorem real_one : real (1 : ℝ) = 1 := rfl

@[simp, grind =] theorem real_neg (x : ℝ) : real (-x) = -real x := by
  ext <;> simp [real, ofReal]

theorem real_add (x y : ℝ) : real (x + y) = real x + real y := by ext <;> simp [real, ofReal]
theorem real_mul (x y : ℝ) : real (x * y) = real x * real y := by ext <;> simp [real, ofReal]

@[grind =] theorem imaginary_eq (x : ℝ) : imaginary x = i * real x := by
  ext <;> simp [imaginary, i, real, ofReal]

@[grind =] theorem minusI_eq (x : ℝ) : minusI x = -(i * real x) := by
  ext <;> simp [minusI, i, real, ofReal]

/-! ## The unit circle -/

theorem conj_cis (x : ℝ) : conj (cis x) = cis (-x) := by
  rw [cis_eq, cis_eq, Real.cos_neg, Real.sin_neg]
  rfl

/-- A point of the unit circle times its conjugate is one. -/
theorem conj_cis_mul_cis (x : ℝ) : conj (cis x) * cis x = 1 := by
  rw [conj_cis, ← cis_add, neg_add_cancel, cis_zero]

/-- The point with the coordinates `c` and `s` lies on the unit circle. -/
theorem real_mul_self_add {c s : ℝ} (h : c * c + s * s = 1) :
    real c * real c + real s * real s = 1 := by
  rw [← real_mul, ← real_mul, ← real_add, h, real_one]

end Cplx

end QuantumGates
