-- The Fourier matrix in exact arithmetic. Its entries are powers of a root of unity. With the
-- bits of the rows in reversed order, the matrix of one more qubit is that of the others times
-- the gates of the new one. The first of these is the Hadamard gate, which adds and subtracts two
-- entries of a row.
import QuantumGates.Proofs.Exact.Gates

namespace QuantumGates

open CMat

/-! ## Reversed bits -/

/-- The number with the bits of `r` in reversed order. -/
def reversedBits (n r : ℕ) : ℕ := packBits n (List.range n).reverse r

/-- The most significant bit of a number becomes the least significant one. -/
theorem reversedBits_succ {k b m : ℕ} (hb : b < 2) (hm : m < 2 ^ k) :
    reversedBits (k + 1) (2 ^ k * b + m) = 2 * reversedBits k m + b := by
  have hpack : ∀ qs : List ℕ, (∀ q ∈ qs, q < k) →
      packBits (k + 1) (qs.map Nat.succ) (2 ^ k * b + m) = packBits k qs m := by
    intro qs
    induction qs with
    | nil => exact fun _ => rfl
    | cons q qs ih =>
      intro hq
      rw [List.map_cons, packBits_cons, packBits_cons, List.length_map,
        bitAt_succ_add (hq q (by simp)) hm, ih fun p hp => hq p (by simp [hp])]
  unfold reversedBits
  rw [List.range_succ_eq_map, List.reverse_cons, packBits_append_singleton, bitAt_zero_add hb hm,
    ← List.map_reverse, hpack]
  intro q hq
  simpa using hq

/-- Reversed bits in reversed order of the qubits are the bits in their own order. -/
theorem reversedBits_packBits_reverse (n : ℕ) (qs : List ℕ) (r : ℕ) :
    reversedBits qs.length (packBits n qs.reverse r) = packBits n qs r := by
  have hrange : ∀ p ∈ (List.range qs.length).reverse, p < qs.reverse.length := by
    intro p hp
    simpa using hp
  have hplaced : placed qs.reverse (List.range qs.length).reverse = qs := by
    unfold placed
    refine List.ext_getElem (by simp) fun i hi hi' => ?_
    have hback : qs.length - 1 - (qs.length - 1 - i) = i := by omega
    rw [List.getElem_map, List.getElem_reverse, List.getElem_range, List.length_range,
      List.getElem?_eq_getElem (by rw [List.length_reverse]; omega), Option.getD_some,
      List.getElem_reverse]
    simp only [hback]
  have h := packBits_packBits n r hrange
  rw [hplaced, List.length_reverse] at h
  exact h

theorem reversedBits_lt (n r : ℕ) : reversedBits n r < 2 ^ n := by
  have h := packBits_lt n (List.range n).reverse r
  rwa [List.length_reverse, List.length_range] at h

/-- To reverse the bits twice changes nothing. -/
theorem reversedBits_reversedBits {n r : ℕ} (hr : r < 2 ^ n) :
    reversedBits n (reversedBits n r) = r := by
  have h := reversedBits_packBits_reverse n (List.range n) r
  rw [List.length_range, packBits_range hr] at h
  exact h

/-! ## The Hadamard gate -/

section

variable (value : Param ℝ → Except (Fault ℝ) ℝ) (tolerance : ℝ) {n : ℕ}

theorem invRootTwo_eq : (invRootTwo : Except (Fault ℝ) ℝ) = .ok (1 / √2) := by
  unfold invRootTwo
  rw [Exact.sqrt?_eq (by rw [Exact.whole_eq]; positivity)]
  rfl

/-- Two shares of one over the square root of two, squared, make one. -/
theorem invRootTwo_mul_self_add : (1 / √2 * (1 / √2) + 1 / √2 * (1 / √2) : ℝ) = 1 := by
  rw [div_mul_div_comm, one_mul, Real.mul_self_sqrt (by norm_num)]
  norm_num

/-- The Hadamard gate on a register. -/
noncomputable def hadamardGate (n q : ℕ) : CMat ℝ :=
  liftGate (Mat.scale (real (1 / √2)) (table [[1, 1], [1, -1]])) [q] n

theorem onRegister_hadamard {q : ℕ} (hq : q < n) :
    (Operation.hadamard q).onRegister value tolerance n = .ok (hadamardGate n q) := by
  refine Operation.onRegister_eq_ok value tolerance (.hadamard q) ?_ ⟨rfl, rfl⟩ ?_ ?_
  · show some (do return Mat.scale (real (← invRootTwo)) (table [[1, 1], [1, -1]])) = _
    rw [invRootTwo_eq]
    rfl
  · exact List.nodup_singleton q
  · show ∀ s ∈ [q], s < n
    simpa using hq

theorem spreadRow_hadamard {q r : ℕ} (f : ℕ → Cplx ℝ) :
    spreadRow (Mat.scale (real (1 / √2)) (table [[1, 1], [1, -1]])) [q] n f r =
      real (1 / √2) * (f (setBit n q 0 r) + (-1) ^ bitAt n q r * f (setBit n q 1 r)) := by
  have hb := bitAt_lt n q r
  rw [spreadRow_one, get_scale hb (by show 0 < 2; omega), get_scale hb (by show 1 < 2; omega),
    get_table hb (by show 0 < 2; omega), get_table hb (by show 1 < 2; omega)]
  rcases bitAt_cases n q r with h | h
  · rw [h, pow_zero]
    simp only [List.getElem?_cons_zero, Option.getD_some, List.getElem?_cons_succ]
    ring
  · rw [h, pow_one]
    simp only [List.getElem?_cons_zero, Option.getD_some, List.getElem?_cons_succ]
    ring

end

/-! ## Roots of unity -/

/-- A power of the root of unity of order `2 ^ n`, scaled for a unitary matrix. -/
noncomputable def fourierEntry (n a : ℕ) : Cplx ℝ :=
  real (1 / √(2 ^ n)) * Cplx.cis (2 * Real.pi * a / 2 ^ n)

theorem toComplex_fourierEntry (n a : ℕ) :
    (fourierEntry n a).toComplex =
      Complex.exp (2 * Real.pi * Complex.I * a / 2 ^ n) / (√(2 ^ n) : ℝ) := by
  have hreal : (real (1 / √(2 ^ n)) : Cplx ℝ).toComplex = ((1 / √(2 ^ n) : ℝ) : ℂ) := rfl
  unfold fourierEntry
  rw [Cplx.toComplex_mul, Cplx.toComplex_cis, hreal, Complex.ofReal_div, Complex.ofReal_one,
    one_div_mul_eq_div]
  congr 2
  push_cast
  ring

/-- Only the power modulo the order counts. -/
theorem cis_mod (n a : ℕ) :
    Cplx.cis (2 * Real.pi * (a % 2 ^ n : ℕ) / 2 ^ n) = Cplx.cis (2 * Real.pi * a / 2 ^ n) := by
  have hpow : (2 : ℝ) ^ n ≠ 0 := pow_ne_zero n two_ne_zero
  have hsplit : (a : ℝ) = 2 ^ n * (a / 2 ^ n : ℕ) + (a % 2 ^ n : ℕ) := by
    have h := Nat.div_add_mod a (2 ^ n)
    exact_mod_cast h.symm
  have hangle : 2 * Real.pi * a / 2 ^ n =
      2 * Real.pi * (a / 2 ^ n : ℕ) + 2 * Real.pi * (a % 2 ^ n : ℕ) / 2 ^ n := by
    rw [hsplit]
    field_simp
  rw [hangle, Cplx.cis_add, Cplx.cis_two_pi_mul, one_mul]

/-- The entry of one more qubit: a share for the new one, its sign and its phase, and the entry
of the others. -/
theorem fourierEntry_succ {k ρ b d l : ℕ} (hb : b < 2) (hd : d < 2) :
    fourierEntry (k + 1) ((2 * ρ + b) * (2 ^ k * d + l)) =
      fourierEntry k (ρ * l) *
        (Cplx.cis (Real.pi * b * l / 2 ^ k) * (real (1 / √2) * (-1) ^ (b * d))) := by
  have hpow : (2 : ℝ) ^ k ≠ 0 := pow_ne_zero k two_ne_zero
  have hroot : (real (1 / √(2 ^ (k + 1))) : Cplx ℝ) = real (1 / √(2 ^ k)) * real (1 / √2) := by
    have h : (1 / √(2 ^ (k + 1)) : ℝ) = 1 / √(2 ^ k) * (1 / √2) := by
      rw [pow_succ, Real.sqrt_mul (by positivity)]
      field_simp
    rw [h]
    ext <;> simp [real, Cplx.ofReal]
  have hsign : Cplx.cis (Real.pi * (b * d : ℕ)) = (-1) ^ (b * d) := by
    obtain rfl | rfl : b = 0 ∨ b = 1 := by omega
    · rw [Nat.zero_mul, Nat.cast_zero, mul_zero, Cplx.cis_zero, pow_zero]
    · obtain rfl | rfl : d = 0 ∨ d = 1 := by omega
      · rw [Nat.mul_zero, Nat.cast_zero, mul_zero, Cplx.cis_zero, pow_zero]
      · rw [Nat.mul_one, Nat.cast_one, mul_one, Cplx.cis_pi, pow_one]
  have hangle : 2 * Real.pi * ((2 * ρ + b) * (2 ^ k * d + l) : ℕ) / 2 ^ (k + 1) =
      2 * Real.pi * (ρ * d : ℕ) + (2 * Real.pi * (ρ * l : ℕ) / 2 ^ k +
        (Real.pi * (b * d : ℕ) + Real.pi * b * l / 2 ^ k)) := by
    push_cast
    rw [pow_succ]
    field_simp
    ring
  unfold fourierEntry
  rw [hangle, Cplx.cis_add, Cplx.cis_two_pi_mul, Cplx.cis_add, Cplx.cis_add, hsign, hroot]
  ring

/-! ## The matrix -/

/-- The Fourier matrix, the bits of its rows in reversed order unless `swaps`. -/
noncomputable def fourierTable (n : ℕ) (swaps : Bool) : CMat ℝ :=
  Mat.ofFn (2 ^ n) (2 ^ n) fun r c => fourierEntry n ((if swaps then r else reversedBits n r) * c)

theorem isSquare_fourierTable (n : ℕ) (swaps : Bool) :
    (fourierTable n swaps).IsSquare (2 ^ n) := ⟨rfl, rfl⟩

theorem get_fourierTable {n r c : ℕ} (swaps : Bool) (hr : r < 2 ^ n) (hc : c < 2 ^ n) :
    (fourierTable n swaps).get r c =
      fourierEntry n ((if swaps then r else reversedBits n r) * c) := Mat.get_ofFn _ hr hc

theorem fourierMatrix_eq (n : ℕ) (swaps : Bool) :
    (fourierMatrix n swaps : Except (Fault ℝ) (CMat ℝ)) = .ok (fourierTable n swaps) := by
  have hentry : ∀ r c : ℕ, (⟨(Cplx.cis (2 * Real.pi * (r * c % 2 ^ n : ℕ) / 2 ^ n)).re / √(2 ^ n),
      (Cplx.cis (2 * Real.pi * (r * c % 2 ^ n : ℕ) / 2 ^ n)).im / √(2 ^ n)⟩ : Cplx ℝ) =
        fourierEntry n (r * c) := by
    intro r c
    rw [cis_mod]
    unfold fourierEntry
    ext
    · simp only [Cplx.re_mul, real, Cplx.ofReal]
      ring
    · simp only [Cplx.im_mul, real, Cplx.ofReal]
      ring
  have hroot : Scalar.sqrt? (Scalar.whole (Nat.pow 2 n) : ℝ) = .ok (√(2 ^ n)) := by
    rw [Exact.sqrt?_eq (by rw [Exact.whole_eq]; positivity), Exact.whole_eq, Nat.pow_eq]
    norm_num
  unfold fourierMatrix fourierTable
  simp only [hroot]
  show Except.ok (Mat.ofFn _ _ fun r c => _) = _
  simp only [Exact.whole_eq, Exact.pi_eq, Nat.pow_eq, Nat.cast_pow, Nat.cast_ofNat, hentry]
  rfl

/-- The matrix of the Fourier gate or, conjugated and transposed, of its inverse. -/
theorem matrix_fourier (value : Param ℝ → Except (Fault ℝ) ℝ) (qs : List ℕ)
    (swaps inverse : Bool) :
    RegisterKind.qft.matrix value (qs, swaps, inverse, ()) =
      .ok (if inverse then (fourierTable qs.length swaps).transposeWith Cplx.conj
        else fourierTable qs.length swaps) := by
  simp only [RegisterKind.matrix, fourierMatrix_eq]
  rfl

end QuantumGates
