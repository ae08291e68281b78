-- Unitary matrices in exact arithmetic. A square matrix is told by the products of its columns:
-- they are orthogonal, and all of them have the same length. Such a matrix on one qubit makes
-- those on two qubits that act by it on a part of the states, and a matrix that only moves and
-- turns the states of the basis is unitary.
import Mathlib.LinearAlgebra.Matrix.NonsingularInverse
import QuantumGates.Proofs.Exact.Conjugate
import QuantumGates.Proofs.Exact.Gates

namespace QuantumGates

open CMat Finset

/-- The columns of a square matrix are orthogonal, and `w` is the square of their length. -/
def Mat.HasGram (m : CMat ℝ) (n : ℕ) (w : Cplx ℝ) : Prop :=
  m.IsSquare n ∧ ∀ r < n, ∀ c < n,
    ∑ k ∈ range n, (m.get k r).conj * m.get k c = if r = c then w else 0

/-- The adjoint of a square matrix is its inverse. -/
def Mat.IsUnitary (m : CMat ℝ) (n : ℕ) : Prop :=
  m.IsSquare n ∧ (m.transposeWith Cplx.conj).mul m = Mat.identity n

namespace Mat

/-! ## The adjoint -/

theorem isSquare_adjoint {m : CMat ℝ} {n : ℕ} (hm : m.IsSquare n) :
    (m.transposeWith Cplx.conj).IsSquare n := ⟨hm.2, hm.1⟩

theorem get_adjoint {m : CMat ℝ} {n r c : ℕ} (hm : m.IsSquare n) (hr : r < n) (hc : c < n) :
    (m.transposeWith Cplx.conj).get r c = (m.get c r).conj :=
  get_ofFn _ (by rwa [hm.2]) (by rwa [hm.1])

theorem adjoint_adjoint {m : CMat ℝ} {n : ℕ} (hm : m.IsSquare n) :
    (m.transposeWith Cplx.conj).transposeWith Cplx.conj = m := by
  have hadjoint := isSquare_adjoint hm
  refine (isSquare_adjoint hadjoint).ext hm fun r hr c hc => ?_
  rw [get_adjoint hadjoint hr hc, get_adjoint hm hc hr, Cplx.conj_conj]

/-- The products of the columns are the entries of the adjoint times the matrix. -/
theorem HasGram.adjoint_mul {m : CMat ℝ} {n : ℕ} {w : Cplx ℝ} (h : m.HasGram n w) :
    (m.transposeWith Cplx.conj).mul m = Mat.scale w (Mat.identity n) := by
  have hadjoint := isSquare_adjoint h.1
  refine (hadjoint.mul h.1).ext ⟨rfl, rfl⟩ fun r hr c hc => ?_
  have hsum : ∑ k ∈ range n, (m.transposeWith Cplx.conj).get r k * m.get k c =
      ∑ k ∈ range n, (m.get k r).conj * m.get k c := by
    refine sum_congr rfl fun k hk => ?_
    rw [get_adjoint h.1 hr (mem_range.mp hk)]
  rw [get_mul hadjoint h.1 hr hc, hsum, h.2 r hr c hc, get_scale hr hc, get_identity hr hc,
    mul_ite, mul_one, mul_zero]

theorem HasGram.isUnitary {m : CMat ℝ} {n : ℕ} (h : m.HasGram n 1) : m.IsUnitary n := by
  refine ⟨h.1, h.adjoint_mul.trans ?_⟩
  refine IsSquare.ext (n := n) ⟨rfl, rfl⟩ (isSquare_identity n) fun r hr c hc => ?_
  rw [get_scale hr hc, one_mul]

/-! ## Inverses -/

section

variable {K : Type} [CommRing K] {n : ℕ} {a b : Mat K}

/-- The entries of a square matrix. -/
def toMatrix (m : Mat K) (n : ℕ) : Matrix (Fin n) (Fin n) K := Matrix.of fun r c => m.get r c

theorem toMatrix_mul (ha : a.IsSquare n) (hb : b.IsSquare n) :
    (a.mul b).toMatrix n = a.toMatrix n * b.toMatrix n := by
  ext r c
  rw [Matrix.mul_apply]
  simp only [toMatrix, Matrix.of_apply]
  rw [get_mul ha hb r.2 c.2, sum_range]

theorem toMatrix_identity (n : ℕ) : (identity n : Mat K).toMatrix n = 1 := by
  ext r c
  simp only [toMatrix, Matrix.of_apply, Matrix.one_apply, get_identity r.2 c.2, Fin.ext_iff]

theorem IsSquare.eq_of_toMatrix (ha : a.IsSquare n) (hb : b.IsSquare n)
    (h : a.toMatrix n = b.toMatrix n) : a = b := by
  refine ha.ext hb fun r hr c hc => ?_
  exact congrFun (congrFun h ⟨r, hr⟩) ⟨c, hc⟩

/-- A matrix that is an inverse on one side is one on the other side. -/
theorem mul_eq_identity_comm (ha : a.IsSquare n) (hb : b.IsSquare n)
    (h : a.mul b = identity n) : b.mul a = identity n := by
  have hone : a.toMatrix n * b.toMatrix n = 1 := by
    rw [← toMatrix_mul ha hb, h, toMatrix_identity]
  refine (hb.mul ha).eq_of_toMatrix (isSquare_identity n) ?_
  rw [toMatrix_mul hb ha, toMatrix_identity]
  exact mul_eq_one_comm.mp hone

end

theorem IsUnitary.mul_adjoint {m : CMat ℝ} {n : ℕ} (h : m.IsUnitary n) :
    m.mul (m.transposeWith Cplx.conj) = Mat.identity n :=
  mul_eq_identity_comm (isSquare_adjoint h.1) h.1 h.2

theorem IsUnitary.adjoint {m : CMat ℝ} {n : ℕ} (h : m.IsUnitary n) :
    (m.transposeWith Cplx.conj).IsUnitary n := by
  refine ⟨isSquare_adjoint h.1, ?_⟩
  rw [adjoint_adjoint h.1]
  exact h.mul_adjoint

/-! ## Moves and phases -/

/-- Basis states sent to different basis states, with a phase each. -/
theorem ActsOnBasis.isUnitary {m : CMat ℝ} {n : ℕ} {σ : ℕ → ℕ} {w : ℕ → Cplx ℝ}
    (h : m.ActsOnBasis n σ w) (hσ : ∀ r < 2 ^ n, ∀ c < 2 ^ n, σ r = σ c → r = c)
    (hw : ∀ c < 2 ^ n, (w c).conj * w c = 1) : m.IsUnitary (2 ^ n) := by
  refine HasGram.isUnitary ⟨h.1, fun r hr c hc => ?_⟩
  obtain ⟨hσc, hget⟩ := h.2 c hc
  rw [sum_eq_single (σ c)]
  · rw [hget _ hσc, if_pos rfl, (h.2 r hr).2 _ hσc]
    by_cases hrc : r = c
    · rw [if_pos hrc, hrc, if_pos rfl, hw c hc]
    · rw [if_neg hrc, if_neg fun heq => hrc (hσ r hr c hc heq.symm), Cplx.conj_zero, zero_mul]
  · intro k hk hne
    rw [hget k (mem_range.mp hk), if_neg hne, mul_zero]
  · intro hmem
    exact absurd (mem_range.mpr hσc) hmem

theorem isUnitary_identity (n : ℕ) : (identity (2 ^ n) : CMat ℝ).IsUnitary (2 ^ n) :=
  (actsOnBasis_identity n).isUnitary (fun _ _ _ _ h => h) fun _ _ => by simp

theorem isUnitary_diagonal (n : ℕ) {f : ℕ → Cplx ℝ} (hf : ∀ k < 2 ^ n, (f k).conj * f k = 1) :
    (diagonal (2 ^ n) f).IsUnitary (2 ^ n) :=
  (actsOnBasis_diagonal n f).isUnitary (fun _ _ _ _ h => h) hf

end Mat

/-! ## Blocks -/

section

variable {outer inner block : List (List (Cplx ℝ))} {a b c d w : Cplx ℝ}

/-- The columns of a matrix on one qubit. -/
theorem hasGram_table (h00 : a.conj * a + c.conj * c = w) (h01 : a.conj * b + c.conj * d = 0)
    (h11 : b.conj * b + d.conj * d = w) : (table [[a, b], [c, d]]).HasGram 2 w := by
  have h10 : b.conj * a + d.conj * c = 0 := by
    have h := congrArg Cplx.conj h01
    simp only [Cplx.conj_add, Cplx.conj_mul, Cplx.conj_conj, Cplx.conj_zero] at h
    linear_combination h
  refine ⟨⟨rfl, rfl⟩, fun r hr k hk => ?_⟩
  rw [sum_range_succ, sum_range_one]
  interval_cases r <;> interval_cases k
  · simpa [get_table] using h00
  · simpa [get_table] using h01
  · simpa [get_table] using h10
  · simpa [get_table] using h11

theorem Mat.HasGram.scale {m : CMat ℝ} {n : ℕ} (h : m.HasGram n w) (k : Cplx ℝ) :
    (Mat.scale k m).HasGram n (k.conj * k * w) := by
  refine ⟨h.1, fun r hr c hc => ?_⟩
  have hget : ∀ i < n, ∀ j < n, (Mat.scale k m).get i j = k * m.get i j := fun i hi j hj =>
    get_scale (by rwa [h.1.1]) (by rwa [h.1.2])
  have hsum : ∑ i ∈ range n, ((Mat.scale k m).get i r).conj * (Mat.scale k m).get i c =
      k.conj * k * ∑ i ∈ range n, (m.get i r).conj * m.get i c := by
    rw [mul_sum]
    refine sum_congr rfl fun i hi => ?_
    rw [hget i (mem_range.mp hi) r hr, hget i (mem_range.mp hi) c hc, Cplx.conj_mul]
    ring
  rw [hsum, h.2 r hr c hc, mul_ite, mul_zero]

/-- One block acts on 00 and 11, the other one on 01 and 10. -/
theorem hasGram_outerInner (ho : (table outer).HasGram 2 w) (hi : (table inner).HasGram 2 w) :
    (outerInner outer inner).HasGram 4 w := by
  have houter := ho.2
  have hinner := hi.2
  simp only [sum_range_succ, sum_range_zero, zero_add] at houter hinner
  refine ⟨⟨rfl, rfl⟩, fun r hr c hc => ?_⟩
  unfold outerInner
  simp only [sum_range_succ, sum_range_zero, zero_add]
  interval_cases r <;> interval_cases c <;> simp [get_table, houter, hinner]

/-- The block acts on 10 and 11. -/
theorem hasGram_controlled (h : (table block).HasGram 2 1) : (controlled block).HasGram 4 1 := by
  have hblock := h.2
  simp only [sum_range_succ, sum_range_zero, zero_add] at hblock
  refine ⟨⟨rfl, rfl⟩, fun r hr c hc => ?_⟩
  unfold controlled
  simp only [sum_range_succ, sum_range_zero, zero_add]
  interval_cases r <;> interval_cases c <;> simp [get_table, hblock]

end

end QuantumGates
