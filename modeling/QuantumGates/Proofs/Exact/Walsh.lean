-- A Hadamard gate on every listed qubit. Together they are the matrix of Walsh signs, whose entry
-- is a minus for each place at which both indices have a 1. Signs of two rows multiply to sums
-- over all states, and a sum factors over the bits: it is nought unless the rows agree, or, with
-- the parity of the state as one more sign, unless they are complements.
import QuantumGates.Proofs.Circuit.ThreeQubits

namespace QuantumGates

open CMat Finset

/-! ## Signs -/

/-- A minus for each of the last `k` places at which both numbers have a 1. -/
def walshSign : ℕ → ℕ → ℕ → ℤ
  | 0, _, _ => 1
  | k + 1, r, c => walshSign k (r / 2) (c / 2) * (-1) ^ (r % 2 * (c % 2))

/-- The sign of a number with one more bit. -/
theorem walshSign_succ {b d : ℕ} (hb : b < 2) (hd : d < 2) (k r c : ℕ) :
    walshSign (k + 1) (2 * r + b) (2 * c + d) = walshSign k r c * (-1) ^ (b * d) := by
  have hr : (2 * r + b) / 2 = r := by omega
  have hc : (2 * c + d) / 2 = c := by omega
  have hb' : (2 * r + b) % 2 = b := by omega
  have hd' : (2 * c + d) % 2 = d := by omega
  rw [walshSign, hr, hc, hb', hd']

theorem bitCount_bit {b : ℕ} (hb : b < 2) (k : ℕ) : bitCount (2 * k + b) = bitCount k + b := by
  have hdiv : (2 * k + b) / 2 = k := by omega
  have hmod : (2 * k + b) % 2 = b := by omega
  rw [bitCount_eq, hdiv, hmod, Nat.add_comm]

/-- The signs of a row and a column, multiplied and added up over all states, a state with an odd
count of ones with one more factor `s` for each of them. -/
def walshSum (s : ℤ) (k r c : ℕ) : ℤ :=
  ∑ j ∈ range (2 ^ k), walshSign k r j * s ^ bitCount j * walshSign k j c

/-- One more bit multiplies the sum by a factor. -/
theorem walshSum_succ {b d : ℕ} (hb : b < 2) (hd : d < 2) (s : ℤ) (k r c : ℕ) :
    walshSum s (k + 1) (2 * r + b) (2 * c + d) = walshSum s k r c * (1 + s * (-1) ^ (b + d)) := by
  unfold walshSum
  rw [Nat.pow_succ', sum_range_two_mul, sum_mul]
  refine sum_congr rfl fun j _ => ?_
  have heven : bitCount (2 * j) = bitCount j := bitCount_bit (b := 0) (by omega) j
  have hrow : walshSign (k + 1) (2 * r + b) (2 * j) = walshSign k r j := by
    have h := walshSign_succ hb (d := 0) (by omega) k r j
    rwa [Nat.mul_zero, pow_zero, mul_one] at h
  have hcolumn : walshSign (k + 1) (2 * j) (2 * c + d) = walshSign k j c := by
    have h := walshSign_succ (b := 0) (by omega) hd k j c
    rwa [Nat.zero_mul, pow_zero, mul_one] at h
  rw [hrow, hcolumn, heven, walshSign_succ hb (by omega), walshSign_succ (by omega) hd,
    bitCount_bit (by omega), Nat.mul_one, Nat.one_mul, pow_add, pow_add]
  ring

/-- What holds of a row and a column without bits, and of those with one more bit each, holds of all
rows and columns of a table. -/
theorem row_column_induction {motive : ℕ → ℕ → ℕ → Prop} (zero : motive 0 0 0)
    (bit : ∀ k r c b d, r < 2 ^ k → c < 2 ^ k → b < 2 → d < 2 → motive k r c →
      motive (k + 1) (2 * r + b) (2 * c + d)) {k r c : ℕ} (hr : r < 2 ^ k) (hc : c < 2 ^ k) :
    motive k r c := by
  induction k generalizing r c with
  | zero =>
    obtain rfl : r = 0 := by omega
    obtain rfl : c = 0 := by omega
    exact zero
  | succ k ih =>
    rw [Nat.pow_succ] at hr hc
    have h := bit k (r / 2) (c / 2) (r % 2) (c % 2) (by omega) (by omega) (by omega) (by omega)
      (ih (by omega) (by omega))
    rwa [Nat.div_add_mod, Nat.div_add_mod] at h

/-- Different rows are orthogonal. -/
theorem walshSum_one {k r c : ℕ} (hr : r < 2 ^ k) (hc : c < 2 ^ k) :
    walshSum 1 k r c = if r = c then 2 ^ k else 0 := by
  refine row_column_induction (motive := fun k r c => walshSum 1 k r c = if r = c then 2 ^ k else 0)
    rfl (fun k r c b d hr hc hb hd ih => ?_) hr hc
  have hiff : 2 * r + b = 2 * c + d ↔ r = c ∧ b = d := by omega
  rw [walshSum_succ hb hd, ih, if_congr hiff rfl rfl, pow_succ]
  interval_cases b <;> interval_cases d <;> by_cases h : r = c <;> simp [h]

/-- With the parity as one more sign, a row only meets its complement. -/
theorem walshSum_neg_one {k r c : ℕ} (hr : r < 2 ^ k) (hc : c < 2 ^ k) :
    walshSum (-1) k r c = if r = 2 ^ k - 1 - c then 2 ^ k else 0 := by
  refine row_column_induction
    (motive := fun k r c => walshSum (-1) k r c = if r = 2 ^ k - 1 - c then 2 ^ k else 0)
    rfl (fun k r c b d hr hc hb hd ih => ?_) hr hc
  have hiff : 2 * r + b = 2 ^ (k + 1) - 1 - (2 * c + d) ↔ r = 2 ^ k - 1 - c ∧ b = 1 - d := by
    rw [Nat.pow_succ]
    omega
  rw [walshSum_succ hb hd, ih, if_congr hiff rfl rfl, pow_succ]
  interval_cases b <;> interval_cases d <;> by_cases h : r = 2 ^ k - 1 - c <;> simp [h]

/-! ## The matrix -/

/-- The matrix of Walsh signs on `k` qubits, scaled for a unitary matrix. -/
noncomputable def walshMatrix (k : ℕ) : CMat ℝ :=
  Mat.ofFn (2 ^ k) (2 ^ k) fun r c =>
    real (1 / √(Scalar.whole 2)) ^ k * (walshSign k r c : Cplx ℝ)

theorem isSquare_walshMatrix (k : ℕ) : (walshMatrix k).IsSquare (2 ^ k) := ⟨rfl, rfl⟩

theorem get_walshMatrix {k r c : ℕ} (hr : r < 2 ^ k) (hc : c < 2 ^ k) :
    (walshMatrix k).get r c = real (1 / √2) ^ k * (walshSign k r c : Cplx ℝ) := by
  unfold walshMatrix
  rw [Mat.get_ofFn _ hr hc, Exact.whole_eq, Nat.cast_ofNat]

theorem walshMatrix_zero : walshMatrix 0 = Mat.identity 1 := by
  refine (isSquare_walshMatrix 0).ext (Mat.isSquare_identity 1) fun r hr c hc => ?_
  have hr0 : r = 0 := by omega
  have hc0 : c = 0 := by omega
  subst hr0 hc0
  rw [get_walshMatrix hr hc, Mat.get_identity (by omega) (by omega), if_pos rfl, pow_zero, one_mul]
  exact Int.cast_one

/-- The scales of two matrices share out the number of states. -/
theorem hadamard_shares (k : ℕ) :
    real (1 / √2) ^ k * real (1 / √2) ^ k * ((2 ^ k : ℤ) : Cplx ℝ) = 1 := by
  push_cast
  rw [← mul_pow, ← mul_pow, mul_comm, two_mul_hadamard_share, one_pow]

/-- A diagonal between Walsh matrices, weighed by a constant and by one for the parity, keeps each
state by the one and complements it by the other. -/
theorem get_walsh_diagonal_walsh {k r c : ℕ} (a b : Cplx ℝ) (hr : r < 2 ^ k) (hc : c < 2 ^ k) :
    ((walshMatrix k).mul
      ((Mat.diagonal (2 ^ k) fun j => a + b * (-1) ^ bitCount j).mul (walshMatrix k))).get r c =
        a * (if r = c then 1 else 0) + b * if r = 2 ^ k - 1 - c then 1 else 0 := by
  have hW := isSquare_walshMatrix k
  have hD := Mat.isSquare_diagonal (2 ^ k) fun j => a + b * (-1) ^ bitCount j
  set share : Cplx ℝ := real (1 / √2) ^ k * real (1 / √2) ^ k with hshare
  have hone : share * ((2 ^ k : ℤ) : Cplx ℝ) = 1 := hadamard_shares k
  have hkeep : ((walshSum 1 k r c : ℤ) : Cplx ℝ) =
      ∑ j ∈ range (2 ^ k), (walshSign k r j : Cplx ℝ) * (walshSign k j c : Cplx ℝ) := by
    unfold walshSum
    push_cast
    exact sum_congr rfl fun j _ => by rw [one_pow, mul_one]
  have hflip : ((walshSum (-1) k r c : ℤ) : Cplx ℝ) = ∑ j ∈ range (2 ^ k),
      (walshSign k r j : Cplx ℝ) * (-1) ^ bitCount j * (walshSign k j c : Cplx ℝ) := by
    unfold walshSum
    push_cast
    rfl
  calc _ = ∑ j ∈ range (2 ^ k), (share * a *
          ((walshSign k r j : Cplx ℝ) * (walshSign k j c : Cplx ℝ)) + share * b *
          ((walshSign k r j : Cplx ℝ) * (-1) ^ bitCount j * (walshSign k j c : Cplx ℝ))) := by
        rw [Mat.get_mul hW (hD.mul hW) hr hc]
        refine sum_congr rfl fun j hj => ?_
        have hj' := mem_range.mp hj
        rw [Mat.get_diagonal_mul hW hj' hc, get_walshMatrix hr hj', get_walshMatrix hj' hc, hshare]
        ring
    _ = share * a * ((walshSum 1 k r c : ℤ) : Cplx ℝ) +
          share * b * ((walshSum (-1) k r c : ℤ) : Cplx ℝ) := by
        rw [sum_add_distrib, ← mul_sum, ← mul_sum, hkeep, hflip]
    _ = _ := by
        rw [walshSum_one hr hc, walshSum_neg_one hr hc]
        split_ifs
        · linear_combination (a + b) * hone
        · linear_combination a * hone
        · linear_combination b * hone
        · simp

/-! ## Hadamard gates on all listed qubits -/

section

variable {n : ℕ}

/-- A Hadamard gate on one more qubit makes the Walsh matrix of one more bit. -/
theorem hadamardGate_mul_walsh {qs : List ℕ} {q : ℕ} (hd : (qs ++ [q]).Nodup)
    (hq : ∀ p ∈ qs ++ [q], p < n) :
    (hadamardGate n q).mul (liftGate (walshMatrix qs.length) qs n) =
      liftGate (walshMatrix (qs ++ [q]).length) (qs ++ [q]) n := by
  have hqn : q < n := hq q (by simp)
  have hqs : ∀ p ∈ qs, p < n := fun p hmem => hq p (by simp [hmem])
  have hdqs : qs.Nodup := (List.nodup_append.mp hd).1
  have hnotMem := notMem_of_nodup_append hd
  have hL := isSquare_liftGate (walshMatrix qs.length) qs n
  have hH : (hadamardGate n q).IsSquare (2 ^ n) := isSquare_liftGate _ _ _
  refine (hH.mul hL).ext (isSquare_liftGate _ _ n)
    fun r hr c hc => ?_
  have hrow := bitAt_lt n q r
  have hcolumn := bitAt_lt n q c
  have hpack : ∀ d < 2, packBits n qs (setBit n q d r) = packBits n qs r := by
    intro d hd'
    refine packBits_congr fun p hmem => ?_
    rw [bitAt_setBit hd' (hqs p hmem) hqn, if_neg]
    intro heq
    exact hnotMem (heq ▸ hmem)
  -- Of the two entries that the gate adds, the one with the bit of the column is not nought.
  have hiff : ∀ d < 2, (replaceBits n qs (packBits n qs c) (setBit n q d r) = c ↔
      d = bitAt n q c ∧
        replaceBits n (qs ++ [q]) (packBits n (qs ++ [q]) c) r = c) := by
    intro d hd'
    rw [replaceBits_packBits_eq_iff hdqs hqs (setBit_lt hd' hqn hr) hc,
      replaceBits_packBits_eq_iff hd hq hr hc]
    constructor
    · intro hall
      have hbit := hall q hqn hnotMem
      rw [bitAt_setBit hd' hqn hqn, if_pos rfl] at hbit
      refine ⟨hbit, fun p hp hmem => ?_⟩
      rw [List.mem_append, List.mem_singleton, not_or] at hmem
      rw [← hall p hp hmem.1, bitAt_setBit hd' hp hqn, if_neg hmem.2]
    · rintro ⟨rfl, hall⟩ p hp hmem
      rw [bitAt_setBit hcolumn hp hqn]
      by_cases hpq : p = q
      · rw [if_pos hpq, hpq]
      · rw [if_neg hpq]
        exact hall p hp (by simp [hmem, hpq])
  have hentry : ∀ d < 2, (liftGate (walshMatrix qs.length) qs n).get (setBit n q d r) c =
      if d = bitAt n q c ∧ replaceBits n (qs ++ [q]) (packBits n (qs ++ [q]) c) r = c then
        real (1 / √2) ^ qs.length *
          (walshSign qs.length (packBits n qs r) (packBits n qs c) : Cplx ℝ) else 0 := by
    intro d hd'
    rw [get_liftGate_packed _ hdqs hqs (setBit_lt hd' hqn hr) hc, hpack d hd',
      get_walshMatrix (packBits_lt n qs r) (packBits_lt n qs c)]
    simp only [hiff d hd']
  rw [get_hadamardGate_mul hqn hL hr hc, hentry 0 (by omega), hentry 1 (by omega),
    get_liftGate_packed _ hd hq hr hc,
    get_walshMatrix (packBits_lt n _ r) (packBits_lt n _ c), packBits_append_singleton,
    packBits_append_singleton, List.length_append, List.length_singleton,
    walshSign_succ hrow hcolumn, ← packBits_append_singleton]
  rcases bitAt_cases n q c with h | h <;> rw [h] <;> push_cast
  · simp only [true_and, false_and, if_false, mul_zero, add_zero,
      pow_zero, mul_one, mul_ite]
    split_ifs <;> ring
  · simp only [true_and, false_and, if_false, mul_zero, zero_add, mul_one, mul_ite]
    split_ifs <;> ring

/-- Hadamard gates on distinct qubits are the Walsh matrix, lifted to them. -/
theorem unitary_hadamardLayer (value : Param ℝ → Except (Fault ℝ) ℝ) (tolerance : ℝ)
    {qs : List ℕ} (hd : qs.Nodup) (hq : ∀ q ∈ qs, q < n) :
    Circuit.unitary value tolerance (qs.map Operation.hadamard) n =
      .ok (liftGate (walshMatrix qs.length) qs n) := by
  induction qs using List.reverseRecOn with
  | nil =>
    show _ = Except.ok (liftGate (walshMatrix 0) [] n)
    rw [walshMatrix_zero]
    exact (Circuit.unitary_nil value tolerance n).trans
      (congrArg Except.ok (liftGate_identity hd hq).symm)
  | append_singleton qs q ih =>
    have hlayer := ih (List.nodup_append.mp hd).1 fun p hmem => hq p (by simp [hmem])
    have hgate := Circuit.unitary_singleton value tolerance
      (onRegister_hadamard value tolerance (hq q (by simp)))
    rw [List.map_append, ← hadamardGate_mul_walsh hd hq]
    exact Circuit.unitary_append value tolerance hlayer hgate

end

end QuantumGates
