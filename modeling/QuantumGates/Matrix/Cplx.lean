-- Complex numbers as pairs, with the schoolbook sum and product.
import QuantumGates.Scalar

namespace QuantumGates

/-- The complex number `re + i * im`. -/
@[ext]
structure Cplx (R : Type) where
  re : R
  im : R
deriving DecidableEq, Repr

namespace Cplx

variable {R : Type} [Scalar R]

instance : Zero (Cplx R) := ⟨⟨0, 0⟩⟩
instance : One (Cplx R) := ⟨⟨1, 0⟩⟩
instance : Add (Cplx R) := ⟨fun a b => ⟨a.re + b.re, a.im + b.im⟩⟩
instance : Sub (Cplx R) := ⟨fun a b => ⟨a.re - b.re, a.im - b.im⟩⟩
instance : Neg (Cplx R) := ⟨fun a => ⟨-a.re, -a.im⟩⟩
instance : Mul (Cplx R) :=
  ⟨fun a b => ⟨a.re * b.re - a.im * b.im, a.re * b.im + a.im * b.re⟩⟩

/-- The imaginary unit. -/
def i : Cplx R := ⟨0, 1⟩

def ofReal (x : R) : Cplx R := ⟨x, 0⟩

/-- The conjugate. -/
def conj (a : Cplx R) : Cplx R := ⟨a.re, -a.im⟩

/-- The point of the unit circle at the angle `x`. -/
def cis (x : R) : Cplx R := ⟨(Scalar.cosSin x).1, (Scalar.cosSin x).2⟩

@[simp] theorem re_zero : (0 : Cplx R).re = 0 := rfl
@[simp] theorem im_zero : (0 : Cplx R).im = 0 := rfl
@[simp] theorem re_one : (1 : Cplx R).re = 1 := rfl
@[simp] theorem im_one : (1 : Cplx R).im = 0 := rfl
@[simp] theorem re_add (a b : Cplx R) : (a + b).re = a.re + b.re := rfl
@[simp] theorem im_add (a b : Cplx R) : (a + b).im = a.im + b.im := rfl
@[simp] theorem re_neg (a : Cplx R) : (-a).re = -a.re := rfl
@[simp] theorem im_neg (a : Cplx R) : (-a).im = -a.im := rfl
@[simp] theorem re_mul (a b : Cplx R) : (a * b).re = a.re * b.re - a.im * b.im := rfl
@[simp] theorem im_mul (a b : Cplx R) : (a * b).im = a.re * b.im + a.im * b.re := rfl
@[simp] theorem conj_conj_re (a : Cplx R) : a.conj.conj.re = a.re := rfl

end Cplx

end QuantumGates
