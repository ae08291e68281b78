-- The matrix that reverses the order of the qubits. The exchanges of a circuit have it as their
-- matrix, and a gate between two of them is the same gate on the qubits in reversed order.
import QuantumGates.Proofs.Circuit.Fourier

namespace QuantumGates

open CMat Finset

/-! ## The permutation matrix -/

/-- The permutation matrix that reverses the bits of an index. -/
noncomputable def reversalMatrix (n : ℕ) : CMat ℝ :=
  Mat.ofFn (2 ^ n) (2 ^ n) fun r c => Mat.unitEntry ((bitReversal n)[r]?.getD 0) c

theorem isSquare_reversalMatrix (n : ℕ) : (reversalMatrix n).IsSquare (2 ^ n) := ⟨rfl, rfl⟩

theorem get_reversalMatrix {n r c : ℕ} (hr : r < 2 ^ n) (hc : c < 2 ^ n) :
    (reversalMatrix n).get r c = if reversedBits n r = c then 1 else 0 := by
  have hread : (bitReversal n)[r]?.getD 0 = reversedBits n r := by
    unfold bitReversal reversedBits
    simp [List.getElem?_range hr]
  unfold reversalMatrix
  rw [Mat.get_ofFn _ hr hc, hread]
  rfl

theorem reads_reversalMatrix (n : ℕ) : (reversalMatrix n).Reads (2 ^ n) (reversedBits n) where
  isSquare := isSquare_reversalMatrix n
  lt r _ := reversedBits_lt n r
  get_eq _ hr _ hc := get_reversalMatrix hr hc

section

variable {n r c : ℕ} {m : CMat ℝ}

theorem get_reversalMatrix_mul (hm : m.IsSquare (2 ^ n)) (hr : r < 2 ^ n) (hc : c < 2 ^ n) :
    ((reversalMatrix n).mul m).get r c = m.get (reversedBits n r) c :=
  (reads_reversalMatrix n).get_mul hm hr hc

theorem get_mul_reversalMatrix (hm : m.IsSquare (2 ^ n)) (hr : r < 2 ^ n) (hc : c < 2 ^ n) :
    (m.mul (reversalMatrix n)).get r c = m.get r (reversedBits n c) := by
  rw [Mat.get_mul hm (isSquare_reversalMatrix n) hr hc, sum_eq_single (reversedBits n c)]
  · rw [get_reversalMatrix (reversedBits_lt n c) hc, reversedBits_reversedBits hc, if_pos rfl,
      mul_one]
  · intro k hk hne
    have hk' := mem_range.mp hk
    rw [get_reversalMatrix hk' hc, if_neg, mul_zero]
    intro heq
    apply hne
    rw [← heq, reversedBits_reversedBits hk']
  · intro hmem
    exact absurd (mem_range.mpr (reversedBits_lt n c)) hmem

theorem isSquare_reversed (hm : m.IsSquare (2 ^ n)) :
    (((reversalMatrix n).mul m).mul (reversalMatrix n)).IsSquare (2 ^ n) :=
  ((isSquare_reversalMatrix n).mul hm).mul (isSquare_reversalMatrix n)

/-- Between two reversals both indices of a matrix are read backwards. -/
theorem get_reversed (hm : m.IsSquare (2 ^ n)) (hr : r < 2 ^ n) (hc : c < 2 ^ n) :
    (((reversalMatrix n).mul m).mul (reversalMatrix n)).get r c =
      m.get (reversedBits n r) (reversedBits n c) := by
  rw [get_mul_reversalMatrix ((isSquare_reversalMatrix n).mul hm) hr hc,
    get_reversalMatrix_mul hm hr (reversedBits_lt n c)]

/-- To reverse both indices twice changes nothing. -/
theorem reversed_reversed (hm : m.IsSquare (2 ^ n)) :
    ((reversalMatrix n).mul (((reversalMatrix n).mul m).mul (reversalMatrix n))).mul
      (reversalMatrix n) = m := by
  have hm' := isSquare_reversed hm
  refine (isSquare_reversed hm').ext hm fun r hr c hc => ?_
  rw [get_reversed hm' hr hc, get_reversed hm (reversedBits_lt n r) (reversedBits_lt n c),
    reversedBits_reversedBits hr, reversedBits_reversedBits hc]

end

/-! ## Qubits in reversed order -/

section

variable {n : ℕ} {qs : List ℕ}

theorem reversedBits_packBits (n : ℕ) (qs : List ℕ) (r : ℕ) :
    reversedBits qs.length (packBits n qs r) = packBits n qs.reverse r := by
  have h := reversedBits_packBits_reverse n qs.reverse r
  rwa [List.reverse_reverse, List.length_reverse] at h

/-- The exchanges have the lifted permutation as their matrix. -/
theorem unitary_reversal_eq_lift {R : Type} [Scalar R] [BinaryScalar R]
    (value : Param R → Except (Fault R) R) (tolerance : R) {m : CMat R} (hd : qs.Nodup)
    (hq : ∀ q ∈ qs, q < n) (hm : m.Reads (2 ^ qs.length) (reversedBits qs.length)) :
    Circuit.unitary value tolerance (reversal qs) n = .ok (liftGate m qs n) := by
  obtain ⟨v, hv, hreads⟩ := unitary_reversal value tolerance hd hq
  refine hv.trans (congrArg Except.ok (hreads.ext (hm.lift hq) fun r _ => ?_))
  rw [reversedBits_packBits]

/-- A gate on the qubits in reversed order is the gate between two reversals. -/
theorem liftGate_reverse {m : CMat ℝ} (hm : m.IsSquare (2 ^ qs.length)) (hd : qs.Nodup)
    (hq : ∀ q ∈ qs, q < n) :
    liftGate m qs.reverse n =
      liftGate (((reversalMatrix qs.length).mul m).mul (reversalMatrix qs.length)) qs n := by
  have hd' : qs.reverse.Nodup := List.nodup_reverse.mpr hd
  have hq' : ∀ q ∈ qs.reverse, q < n := fun q hmem => hq q (List.mem_reverse.mp hmem)
  refine (isSquare_liftGate _ _ n).ext (isSquare_liftGate _ _ n) fun r hr c hc => ?_
  have hsame : replaceBits n qs.reverse (packBits n qs.reverse c) r =
      replaceBits n qs (packBits n qs c) r := by
    have hpack : packBits n qs.reverse (replaceBits n qs (packBits n qs c) r) =
        packBits n qs.reverse c := by
      rw [← reversedBits_packBits, packBits_replaceBits hd hq (packBits_lt n qs c),
        reversedBits_packBits]
    rw [← hpack]
    refine (eq_replaceBits hd' hq' (replaceBits_lt hq hr) hr fun q hqn hmem => ?_).symm
    rw [List.mem_reverse] at hmem
    exact bitAt_replaceBits_of_notMem hq hqn hmem
  rw [get_liftGate_packed m hd' hq' hr hc, get_liftGate_packed _ hd hq hr hc, hsame,
    get_reversed hm (packBits_lt n qs r) (packBits_lt n qs c), reversedBits_packBits,
    reversedBits_packBits]

end

end QuantumGates
