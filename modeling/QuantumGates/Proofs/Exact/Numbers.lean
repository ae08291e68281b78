-- Exact arithmetic. The real numbers are numbers in which gates can be computed, half a turn
-- being the real number pi. Pairs of them are the complex numbers, and a point of the unit
-- circle is a power of e. A law of exact arithmetic is a statement about these numbers.
import Mathlib.Analysis.SpecialFunctions.Complex.Arg
import Mathlib.Analysis.SpecialFunctions.Pow.Real
import QuantumGates.Matrix.Cplx

namespace QuantumGates

/-! ## The real numbers -/

/-- A real number has no text of its own in general, and no law of exact arithmetic reads one. -/
noncomputable instance : Scalar ℝ where
  toZero := inferInstance
  toOne := inferInstance
  toAdd := inferInstance
  toSub := inferInstance
  toMul := inferInstance
  toNeg := inferInstance
  toDiv := inferInstance
  whole n := n
  pi := Real.pi
  isFinite _ := true
  isDefined _ := true
  equal x y := decide (x = y)
  below x y := decide (x < y)
  abs x := |x|
  sign x := if x < 0 then -1 else 1
  atan2 y x := Complex.arg ⟨x, y⟩
  sin? x := .ok (Real.sin x)
  cos? x := .ok (Real.cos x)
  acos? x := if |x| ≤ 1 then .ok (Real.arccos x) else .error .undefined
  exp? x := .ok (Real.exp x)
  sqrt? x := if x < 0 then .error .undefined else .ok (Real.sqrt x)
  pow? x y :=
    if (x = 0 ∧ y < 0) ∨ (x < 0 ∧ (⌊y⌋ : ℝ) ≠ y) then .error .undefined else .ok (x ^ y)
  square? x := .ok (x * x)
  hypot? x y := .ok (Real.sqrt (x * x + y * y))
  cosSin x := (Real.cos x, Real.sin x)
  text _ := ""
  isMinus x := decide (x < 0)

namespace Exact

theorem whole_eq (n : ℕ) : (Scalar.whole n : ℝ) = n := rfl
theorem pi_eq : (Scalar.pi : ℝ) = Real.pi := rfl

theorem sqrt?_eq {x : ℝ} (hx : 0 ≤ x) : Scalar.sqrt? x = .ok (Real.sqrt x) := by
  show (if x < 0 then .error .undefined else .ok (Real.sqrt x) : Except (Fault ℝ) ℝ) = _
  rw [if_neg (not_lt.mpr hx)]

end Exact

/-! ## The complex numbers -/

namespace Cplx

theorem re_sub (a b : Cplx ℝ) : (a - b).re = a.re - b.re := rfl
theorem im_sub (a b : Cplx ℝ) : (a - b).im = a.im - b.im := rfl

/-- Pairs of real numbers are a commutative ring. -/
noncomputable instance : CommRing (Cplx ℝ) where
  add_assoc a b c := by ext <;> simp [add_assoc]
  zero_add a := by ext <;> simp
  add_zero a := by ext <;> simp
  add_comm a b := by ext <;> simp [add_comm]
  neg_add_cancel a := by ext <;> simp
  sub_eq_add_neg a b := by ext <;> simp [re_sub, im_sub, sub_eq_add_neg]
  zero_mul a := by ext <;> simp
  mul_zero a := by ext <;> simp
  one_mul a := by ext <;> simp
  mul_one a := by ext <;> simp
  mul_assoc a b c := by ext <;> simp <;> ring
  mul_comm a b := by ext <;> simp <;> ring
  left_distrib a b c := by ext <;> simp <;> ring
  right_distrib a b c := by ext <;> simp <;> ring
  nsmul := nsmulRec
  zsmul := zsmulRec

/-- A pair as a complex number. -/
def toComplex (z : Cplx ℝ) : ℂ := ⟨z.re, z.im⟩

/-- Pairs of real numbers are the complex numbers. -/
noncomputable def equivComplex : Cplx ℝ ≃+* ℂ where
  toFun := toComplex
  invFun z := ⟨z.re, z.im⟩
  left_inv _ := rfl
  right_inv _ := rfl
  map_mul' a b := by apply Complex.ext <;> simp [toComplex]
  map_add' a b := by apply Complex.ext <;> simp [toComplex]

theorem toComplex_mul (a b : Cplx ℝ) : (a * b).toComplex = a.toComplex * b.toComplex :=
  equivComplex.map_mul a b

/-! ## The unit circle -/

theorem cis_eq (x : ℝ) : cis x = ⟨Real.cos x, Real.sin x⟩ := rfl

theorem toComplex_cis (x : ℝ) : (cis x).toComplex = Complex.exp (x * Complex.I) := by
  rw [Complex.exp_mul_I, cis_eq]
  apply Complex.ext
  · simp [toComplex, Complex.cos_ofReal_re, Complex.sin_ofReal_im]
  · simp [toComplex, Complex.cos_ofReal_im, Complex.sin_ofReal_re]

/-- A point of the unit circle is a power of e. -/
theorem cis_eq_exp (x : ℝ) : cis x = equivComplex.symm (Complex.exp (x * Complex.I)) := by
  rw [← toComplex_cis]
  rfl

@[simp] theorem cis_zero : cis (0 : ℝ) = 1 := by
  rw [cis_eq, Real.cos_zero, Real.sin_zero]
  rfl

theorem cis_add (x y : ℝ) : cis (x + y) = cis x * cis y := by
  ext
  · rw [re_mul, cis_eq, cis_eq, cis_eq, Real.cos_add]
  · rw [im_mul, cis_eq, cis_eq, cis_eq, Real.sin_add]
    ring

theorem cis_pi : cis Real.pi = -1 := by
  rw [cis_eq, Real.cos_pi, Real.sin_pi]
  ext <;> simp

/-- Whole turns lead back. -/
theorem cis_two_pi_mul (k : ℕ) : cis (2 * Real.pi * k) = 1 := by
  have h : 2 * Real.pi * k = k * (2 * Real.pi) := by ring
  rw [cis_eq, h, Real.cos_nat_mul_two_pi]
  have hs : Real.sin (k * (2 * Real.pi)) = 0 := by
    have := Real.sin_nat_mul_pi (2 * k)
    push_cast at this
    rw [← this]
    ring_nf
  rw [hs]
  rfl

end Cplx

end QuantumGates
