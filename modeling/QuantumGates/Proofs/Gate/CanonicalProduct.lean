-- Canonical values that are numbers. They multiply as the elements of a monoid, associative in all
-- five values and not only as matrices. The norm of a product is the product of the norms, and its
-- matrix the product of the matrices.
import QuantumGates.Proofs.Gate.CanonicalForm

namespace QuantumGates

open CMat

attribute [ext] Canonical

namespace Canonical

noncomputable instance : One (Canonical ℝ) := ⟨⟨1, 0, 0, 0, 0⟩⟩

noncomputable instance : Mul (Canonical ℝ) where
  mul a b :=
    { alphaRe := a.alphaRe * b.alphaRe - a.alphaIm * b.alphaIm -
        (a.betaRe * b.betaRe + a.betaIm * b.betaIm)
      alphaIm := a.alphaRe * b.alphaIm + a.alphaIm * b.alphaRe -
        (a.betaRe * b.betaIm - a.betaIm * b.betaRe)
      betaRe := a.betaRe * b.alphaRe - a.betaIm * b.alphaIm +
        (a.alphaRe * b.betaRe + a.alphaIm * b.betaIm)
      betaIm := a.betaRe * b.alphaIm + a.betaIm * b.alphaRe +
        (a.alphaRe * b.betaIm - a.alphaIm * b.betaRe)
      phase := a.phase + b.phase }

section

variable (a b : Canonical ℝ)

@[simp] theorem alphaRe_one : (1 : Canonical ℝ).alphaRe = 1 := rfl
@[simp] theorem alphaIm_one : (1 : Canonical ℝ).alphaIm = 0 := rfl
@[simp] theorem betaRe_one : (1 : Canonical ℝ).betaRe = 0 := rfl
@[simp] theorem betaIm_one : (1 : Canonical ℝ).betaIm = 0 := rfl
@[simp] theorem phase_one : (1 : Canonical ℝ).phase = 0 := rfl

@[simp] theorem alphaRe_mul : (a * b).alphaRe = a.alphaRe * b.alphaRe - a.alphaIm * b.alphaIm -
    (a.betaRe * b.betaRe + a.betaIm * b.betaIm) := rfl
@[simp] theorem alphaIm_mul : (a * b).alphaIm = a.alphaRe * b.alphaIm + a.alphaIm * b.alphaRe -
    (a.betaRe * b.betaIm - a.betaIm * b.betaRe) := rfl
@[simp] theorem betaRe_mul : (a * b).betaRe = a.betaRe * b.alphaRe - a.betaIm * b.alphaIm +
    (a.alphaRe * b.betaRe + a.alphaIm * b.betaIm) := rfl
@[simp] theorem betaIm_mul : (a * b).betaIm = a.betaRe * b.alphaIm + a.betaIm * b.alphaRe +
    (a.alphaRe * b.betaIm - a.alphaIm * b.betaRe) := rfl
@[simp] theorem phase_mul : (a * b).phase = a.phase + b.phase := rfl

end

noncomputable instance : Monoid (Canonical ℝ) where
  mul_assoc a b c := by ext <;> simp <;> ring
  one_mul a := by ext <;> simp
  mul_one a := by ext <;> simp

/-- The square of the length of the columns is multiplicative. -/
noncomputable def normHom : Canonical ℝ →* ℝ where
  toFun := norm
  map_one' := by simp [norm]
  map_mul' a b := by
    simp only [norm, alphaRe_mul, alphaIm_mul, betaRe_mul, betaIm_mul]
    ring

theorem form_one : form 1 = Mat.identity 2 := by
  rw [identity_two]
  refine form_eq_table ?_ ?_ ?_ ?_ <;> rw [Cplx.cis_zero, one_mul] <;> ext <;> simp

/-- The matrix of a product is the product of the matrices. -/
theorem form_mul (a b : Canonical ℝ) : (a * b).form = a.form.mul b.form := by
  have ha : a.form = _ := form_eq_table rfl rfl rfl rfl
  have hb : b.form = _ := form_eq_table rfl rfl rfl rfl
  rw [ha, hb, table_mul]
  refine form_eq_table ?_ ?_ ?_ ?_ <;> rw [Cplx.cis_add] <;> ext <;> simp <;> ring

theorem isSquare_form (a : Canonical ℝ) : a.form.IsSquare 2 := a.hasGram_form.1

/-- Numbers in the place of parameters multiply as numbers. -/
theorem literals_mul (a b : Canonical ℝ) : a.literals.mul b.literals = (a * b).literals := rfl

theorem literals_injective {a b : Canonical ℝ} (h : a.literals = b.literals) : a = b := by
  simp only [literals, mk.injEq, Param.literal.injEq] at h
  obtain ⟨har, hai, hbr, hbi, hphase⟩ := h
  exact Canonical.ext har hai hbr hbi hphase

end Canonical

/-- The product of square matrices in the order of a list. -/
def Mat.productOf {K : Type} [Zero K] [One K] [Add K] [Mul K] (n : ℕ) (ms : List (Mat K)) : Mat K :=
  ms.foldr Mat.mul (Mat.identity n)

theorem Mat.isSquare_productOf {K : Type} [Semiring K] {n : ℕ} {ms : List (Mat K)}
    (h : ∀ m ∈ ms, m.IsSquare n) : (Mat.productOf n ms).IsSquare n := by
  induction ms with
  | nil => exact Mat.isSquare_identity n
  | cons m ms ih => exact (h m (.head ms)).mul (ih fun m' hm => h m' (.tail m hm))

theorem Canonical.form_prod (cs : List (Canonical ℝ)) :
    cs.prod.form = Mat.productOf 2 (cs.map form) := by
  induction cs with
  | nil => exact form_one
  | cons c cs ih =>
    rw [List.prod_cons, form_mul, ih]
    rfl

end QuantumGates
