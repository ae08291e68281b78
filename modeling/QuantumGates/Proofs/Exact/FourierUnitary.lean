-- The Fourier matrix is unitary. The product of two columns is a geometric sum of powers of a
-- root of unity, which vanishes unless the columns are the same; the order of the rows does not
-- matter to it.
import Mathlib.Algebra.Ring.GeomSum
import QuantumGates.Proofs.Exact.Fourier
import QuantumGates.Proofs.Exact.Unitary

namespace QuantumGates

open CMat Finset

/-! ## Sums of roots of unity -/

namespace Cplx

instance : NoZeroDivisors (Cplx ℝ) :=
  equivComplex.injective.noZeroDivisors equivComplex (map_zero _) (map_mul _)

theorem natCast_eq (n : ℕ) : (n : Cplx ℝ) = real (n : ℝ) := by
  induction n with
  | zero => simp
  | succ n ih => rw [Nat.cast_succ, Nat.cast_succ, real_add, ih, real_one]

theorem cis_nat_mul (x : ℝ) (k : ℕ) : cis (k * x) = cis x ^ k := by
  induction k with
  | zero => simp
  | succ k ih => rw [Nat.cast_succ, add_mul, one_mul, cis_add, ih, pow_succ]

/-- The root of unity at the difference of two columns is one only if they are the same. -/
theorem eq_of_cis_eq_one {N j k : ℕ} (hj : j < N) (hk : k < N)
    (h : cis (2 * Real.pi * ((k : ℝ) - j) / N) = 1) : j = k := by
  have hN : (N : ℝ) ≠ 0 := by
    have : N ≠ 0 := by omega
    exact_mod_cast this
  have hcos : Real.cos (2 * Real.pi * ((k : ℝ) - j) / N) = 1 := congrArg re h
  obtain ⟨m, hm⟩ := (Real.cos_eq_one_iff _).mp hcos
  have hturns : ((k : ℝ) - j) = N * m := by
    have hpi := Real.pi_ne_zero
    field_simp at hm
    linear_combination -hm
  have hdvd : (N : ℤ) ∣ (k : ℤ) - j := ⟨m, by exact_mod_cast hturns⟩
  have hzero : (k : ℤ) - j = 0 := Int.eq_zero_of_abs_lt_dvd hdvd (by rw [abs_lt]; omega)
  omega

/-- The powers of a root of unity add up to nothing, unless the root is one. -/
theorem sum_cis {N j k : ℕ} (hj : j < N) (hk : k < N) :
    ∑ r ∈ range N, cis (r * (2 * Real.pi * ((k : ℝ) - j) / N)) =
      if j = k then (N : Cplx ℝ) else 0 := by
  have hN : (N : ℝ) ≠ 0 := by
    have : N ≠ 0 := by omega
    exact_mod_cast this
  simp only [cis_nat_mul]
  by_cases hjk : j = k
  · simp [hjk]
  · have hroot : cis (2 * Real.pi * ((k : ℝ) - j) / N) ^ N = 1 := by
      have hangle : N * (2 * Real.pi * ((k : ℝ) - j) / N) =
          2 * Real.pi * k + -(2 * Real.pi * j) := by
        field_simp
        ring
      rw [← cis_nat_mul, hangle, cis_add, ← conj_cis, cis_two_pi_mul, cis_two_pi_mul, conj_one,
        one_mul]
    have hsum := geom_sum_mul (cis (2 * Real.pi * ((k : ℝ) - j) / N)) N
    rw [hroot, sub_self, mul_eq_zero, sub_eq_zero] at hsum
    rw [if_neg hjk]
    exact hsum.resolve_right fun h => hjk (eq_of_cis_eq_one hj hk h)

end Cplx

/-! ## The matrix -/

/-- A sum over all rows in reversed order of their bits. -/
theorem sum_reversedBits (n : ℕ) (f : ℕ → Cplx ℝ) :
    ∑ r ∈ range (2 ^ n), f (reversedBits n r) = ∑ r ∈ range (2 ^ n), f r := by
  have hlt : ∀ r ∈ range (2 ^ n), reversedBits n r ∈ range (2 ^ n) := fun r _ =>
    mem_range.mpr (reversedBits_lt n r)
  have hback : ∀ r ∈ range (2 ^ n), reversedBits n (reversedBits n r) = r := fun r hr =>
    reversedBits_reversedBits (mem_range.mp hr)
  exact sum_nbij' (reversedBits n) (reversedBits n) hlt hlt hback hback fun _ _ => rfl

/-- The product of an entry and the conjugate of another one in the same row. -/
theorem conj_fourierEntry_mul (n r j k : ℕ) :
    (fourierEntry n (r * j)).conj * fourierEntry n (r * k) =
      real (1 / 2 ^ n) * Cplx.cis (r * (2 * Real.pi * ((k : ℝ) - j) / (2 ^ n : ℕ))) := by
  have hshare : (1 / √(2 ^ n) * (1 / √(2 ^ n)) : ℝ) = 1 / 2 ^ n := by
    rw [div_mul_div_comm, one_mul, Real.mul_self_sqrt (by positivity)]
  have hangle : (r : ℝ) * (2 * Real.pi * ((k : ℝ) - j) / (2 ^ n : ℕ)) =
      -(2 * Real.pi * (r * j : ℕ) / 2 ^ n) + 2 * Real.pi * (r * k : ℕ) / 2 ^ n := by
    push_cast
    ring
  unfold fourierEntry
  rw [hangle, Cplx.cis_add, ← Cplx.conj_cis, Cplx.conj_mul, Cplx.conj_real, ← hshare,
    Cplx.real_mul]
  ring

theorem isUnitary_fourierTable (n : ℕ) (swaps : Bool) :
    (fourierTable n swaps).IsUnitary (2 ^ n) := by
  refine Mat.HasGram.isUnitary ⟨isSquare_fourierTable n swaps, fun j hj k hk => ?_⟩
  have hrow : ∀ r ∈ range (2 ^ n),
      ((fourierTable n swaps).get r j).conj * (fourierTable n swaps).get r k =
        real (1 / 2 ^ n) * Cplx.cis ((if swaps then r else reversedBits n r : ℕ) *
          (2 * Real.pi * ((k : ℝ) - j) / (2 ^ n : ℕ))) := by
    intro r hr
    rw [get_fourierTable _ (mem_range.mp hr) hj, get_fourierTable _ (mem_range.mp hr) hk,
      conj_fourierEntry_mul]
  have hsum : ∑ r ∈ range (2 ^ n), Cplx.cis ((if swaps then r else reversedBits n r : ℕ) *
      (2 * Real.pi * ((k : ℝ) - j) / (2 ^ n : ℕ))) =
        ∑ r ∈ range (2 ^ n), Cplx.cis (r * (2 * Real.pi * ((k : ℝ) - j) / (2 ^ n : ℕ))) := by
    cases swaps with
    | true => rfl
    | false =>
      exact sum_reversedBits n fun r =>
        Cplx.cis (r * (2 * Real.pi * ((k : ℝ) - j) / (2 ^ n : ℕ)))
  rw [sum_congr rfl hrow, ← mul_sum, hsum, Cplx.sum_cis hj hk]
  by_cases hjk : j = k
  · have hone : (1 / 2 ^ n * ((2 ^ n : ℕ) : ℝ) : ℝ) = 1 := by
      push_cast
      field_simp
    rw [if_pos hjk, if_pos hjk, Cplx.natCast_eq, ← Cplx.real_mul, hone, Cplx.real_one]
  · rw [if_neg hjk, if_neg hjk, mul_zero]

end QuantumGates
