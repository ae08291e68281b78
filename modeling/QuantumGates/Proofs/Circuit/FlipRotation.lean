-- The circuit of the rotation with respect to the first axis of every qubit. Hadamard gates on all
-- listed qubits turn the rotation by parity into one that keeps a state by the cosine and
-- complements its listed bits by the sine, which is the matrix of the gate.
import QuantumGates.Proofs.Circuit.ParityRotation
import QuantumGates.Proofs.Exact.Walsh

namespace QuantumGates

open CMat

/-! ## Complements -/

/-- The index with all listed bits exchanged. -/
def complementBits (n : ℕ) (qs : List ℕ) (x : ℕ) : ℕ :=
  replaceBits n qs (2 ^ qs.length - 1 - packBits n qs x) x

section

variable {n : ℕ} {qs : List ℕ}

theorem bitAt_complement {k i m : ℕ} (hi : i < k) (hm : m < 2 ^ k) :
    bitAt k i (2 ^ k - 1 - m) = 1 - bitAt k i m := by
  have hflip : (2 ^ k - (m + 1)).testBit (k - 1 - i) = !m.testBit (k - 1 - i) := by
    rw [Nat.testBit_two_pow_sub_succ hm]
    simp
    omega
  have hsub : 2 ^ k - 1 - m = 2 ^ k - (m + 1) := by omega
  rw [bitAt_eq_testBit, bitAt_eq_testBit, hsub, hflip]
  cases m.testBit (k - 1 - i) <;> rfl

theorem complement_lt (n : ℕ) (qs : List ℕ) (x : ℕ) :
    2 ^ qs.length - 1 - packBits n qs x < 2 ^ qs.length := by
  have hpos := Nat.two_pow_pos qs.length
  omega

/-- The listed bits are exchanged, and the others stay. -/
theorem bitAt_complementBits (hd : qs.Nodup) (hq : ∀ q ∈ qs, q < n) {p : ℕ} (hp : p < n)
    (x : ℕ) :
    bitAt n p (complementBits n qs x) = if p ∈ qs then 1 - bitAt n p x else bitAt n p x := by
  unfold complementBits
  by_cases hmem : p ∈ qs
  · obtain ⟨i, hi, rfl⟩ := List.getElem_of_mem hmem
    rw [if_pos hmem, bitAt_replaceBits hd hq hi, bitAt_complement hi (packBits_lt n qs x),
      bitAt_packBits n qs x hi]
  · rw [if_neg hmem, bitAt_replaceBits_of_notMem hq hp hmem]

/-- An index is the complement of another one by its bits. -/
theorem eq_complementBits_iff (hd : qs.Nodup) (hq : ∀ q ∈ qs, q < n) {r c : ℕ} (hr : r < 2 ^ n)
    (hc : c < 2 ^ n) :
    r = complementBits n qs c ↔
      ∀ p < n, bitAt n p r = if p ∈ qs then 1 - bitAt n p c else bitAt n p c := by
  constructor
  · rintro rfl p hp
    exact bitAt_complementBits hd hq hp c
  · intro hbits
    refine eq_of_bitAt hr (replaceBits_lt hq hc) fun p hp => ?_
    exact (hbits p hp).trans (bitAt_complementBits hd hq hp c).symm

/-- The complement of a whole index. -/
theorem eq_complement_iff {k r c : ℕ} (hr : r < 2 ^ k) (hc : c < 2 ^ k) :
    r = 2 ^ k - 1 - c ↔ ∀ p < k, bitAt k p r = 1 - bitAt k p c := by
  constructor
  · rintro rfl p hp
    exact bitAt_complement hp hc
  · intro hbits
    refine eq_of_bitAt hr (by omega) fun p hp => ?_
    rw [hbits p hp, bitAt_complement hp hc]

end

/-! ## The gate -/

/-- The matrix on `k` qubits that keeps each state by the cosine of half of `y` and complements
it by the sine. -/
noncomputable def complementRotation (k : ℕ) (y : ℝ) : CMat ℝ :=
  let half := y / Scalar.whole 2
  Mat.ofFn (2 ^ k) (2 ^ k) fun r c => real (Real.cos half) * Mat.unitEntry r c -
    imaginary 1 * real (Real.sin half) * Mat.unitEntry r (2 ^ k - 1 - c)

theorem isSquare_complementRotation (k : ℕ) (y : ℝ) :
    (complementRotation k y).IsSquare (2 ^ k) := ⟨rfl, rfl⟩

theorem get_complementRotation {k r c : ℕ} (y : ℝ) (hr : r < 2 ^ k) (hc : c < 2 ^ k) :
    (complementRotation k y).get r c =
      real (Real.cos (y / 2)) * (if r = c then 1 else 0) -
        imaginary 1 * real (Real.sin (y / 2)) * if r = 2 ^ k - 1 - c then 1 else 0 := by
  have hhalf : y / (Scalar.whole 2 : ℝ) = y / 2 := by
    rw [Exact.whole_eq, Nat.cast_ofNat]
  unfold complementRotation
  rw [hhalf]
  exact Mat.get_ofFn _ hr hc

theorem matrix_flipRotation {value : Param ℝ → Except (Fault ℝ) ℝ} {qs : List ℕ}
    {theta : Param ℝ} {y : ℝ} (hy : value theta = .ok y) :
    RegisterKind.ms.matrix value (qs, theta, ()) = .ok (complementRotation qs.length y) := by
  show (do
    let half := (← value theta) / (Scalar.whole 2 : ℝ)
    let (c, s) := Scalar.cosSin half
    return Mat.ofFn (2 ^ qs.length) (2 ^ qs.length) fun r k =>
      real c * Mat.unitEntry r k -
        imaginary 1 * real s * Mat.unitEntry r (2 ^ qs.length - 1 - k)) = _
  rw [hy]
  rfl

/-- The phase of a rotation by parity, split into the parts of even and of odd states. -/
theorem parityWeight_eq (y : ℝ) (count : ℕ) :
    parityWeight y count = real (Real.cos (y / 2)) +
      -(imaginary 1 * real (Real.sin (y / 2))) * (-1) ^ count := by
  unfold parityWeight
  rw [fraction_one_two_mul]
  rcases Nat.mod_two_eq_zero_or_one count with h | h
  · rw [if_pos h, (Nat.even_iff.mpr h).neg_one_pow, Cplx.cis_eq, Real.cos_neg, Real.sin_neg]
    ext <;> simp [real, imaginary, Cplx.ofReal]
  · rw [if_neg (by omega), (Nat.odd_iff.mpr h).neg_one_pow, Cplx.cis_eq]
    ext <;> simp [real, imaginary, Cplx.ofReal]

/-- Walsh matrices turn the rotation by parity into the rotation with respect to the first axis
of every qubit. -/
theorem walsh_parity_walsh (k : ℕ) (y : ℝ) :
    (walshMatrix k).mul
      ((Mat.diagonal (2 ^ k) fun j => parityWeight y (bitCount j)).mul (walshMatrix k)) =
        complementRotation k y := by
  have hW := isSquare_walshMatrix k
  have hD := Mat.isSquare_diagonal (2 ^ k) fun j => parityWeight y (bitCount j)
  refine (hW.mul (hD.mul hW)).ext (isSquare_complementRotation k y) fun r hr c hc => ?_
  simp only [parityWeight_eq]
  rw [get_walsh_diagonal_walsh _ _ hr hc, get_complementRotation y hr hc]
  ring

/-! ## The circuit -/

section

variable {n : ℕ} {qs : List ℕ}

/-- The circuit is the rotation by parity between two layers of Hadamard gates. -/
theorem flipRotation_eq {R : Type} [Scalar R] (hne : qs ≠ []) (theta : Param R) :
    flipRotation qs theta = .ok (qs.map Operation.hadamard ++ (flipCircuit (stairs qs) ++
      .rotateZ (qs.getLast hne) theta :: flipCircuit (stairs qs).reverse) ++
        qs.map Operation.hadamard) := by
  have hlen : ¬ qs.length < 1 := by
    have := List.length_pos_iff.mpr hne
    omega
  unfold flipRotation requireQubits
  rw [if_neg hlen]
  let layer : Circuit R := qs.map Operation.hadamard
  show (do return layer ++ (← parityRotation qs theta) ++ layer) = _
  rw [parityRotation_eq hne]
  rfl

theorem unitary_flipRotation (value : Param ℝ → Except (Fault ℝ) ℝ) (tolerance : ℝ)
    (hne : qs ≠ []) (hd : qs.Nodup) (hq : ∀ q ∈ qs, q < n) {theta : Param ℝ} {y : ℝ}
    (hy : value theta = .ok y) :
    Circuit.unitary value tolerance (qs.map Operation.hadamard ++ (flipCircuit (stairs qs) ++
        .rotateZ (qs.getLast hne) theta :: flipCircuit (stairs qs).reverse) ++
          qs.map Operation.hadamard) n =
      .ok (liftGate (complementRotation qs.length y) qs n) := by
  have hlayer := unitary_hadamardLayer value tolerance hd hq
  have hrotation := unitary_stairs_rotation value tolerance hne hd hq hy
  have hcircuit := Circuit.unitary_append value tolerance
    (Circuit.unitary_append value tolerance hlayer hrotation) hlayer
  refine hcircuit.trans (congrArg Except.ok ?_)
  have hW := isSquare_walshMatrix qs.length
  have hD := Mat.isSquare_diagonal (2 ^ qs.length) fun j => parityWeight y (bitCount j)
  have hlift : (Mat.diagonal (2 ^ n) fun x => parityWeight y (onesCount n qs x)) =
      liftGate (Mat.diagonal (2 ^ qs.length) fun j => parityWeight y (bitCount j)) qs n := by
    rw [liftGate_diagonal _ hd hq]
    simp only [bitCount_packBits]
  rw [hlift, ← liftGate_mul hd hq hD hW, ← liftGate_mul hd hq hW (hD.mul hW),
    walsh_parity_walsh]

/-- Lifted to listed qubits, the rotation complements their bits. -/
theorem get_liftGate_complementRotation (hd : qs.Nodup) (hq : ∀ q ∈ qs, q < n) (y : ℝ)
    {r c : ℕ} (hr : r < 2 ^ n) (hc : c < 2 ^ n) :
    (liftGate (complementRotation qs.length y) qs n).get r c =
      real (Real.cos (y / 2)) * (if r = c then 1 else 0) -
        imaginary 1 * real (Real.sin (y / 2)) * if r = complementBits n qs c then 1 else 0 := by
  have hback : replaceBits n qs (packBits n qs c) r = c ∧ packBits n qs r = packBits n qs c ↔
      r = c := by
    constructor
    · rintro ⟨hrow, hpack⟩
      rw [← hpack, replaceBits_packBits hd hq hr] at hrow
      exact hrow
    · rintro rfl
      exact ⟨replaceBits_packBits hd hq hr, rfl⟩
  have hflip : replaceBits n qs (packBits n qs c) r = c ∧
      packBits n qs r = 2 ^ qs.length - 1 - packBits n qs c ↔ r = complementBits n qs c := by
    unfold complementBits
    constructor
    · rintro ⟨hrow, hpack⟩
      rw [← hpack, ← hrow, replaceBits_replaceBits hd hq hr, replaceBits_packBits hd hq hr]
    · rintro rfl
      refine ⟨?_, packBits_replaceBits hd hq (complement_lt n qs c)⟩
      rw [replaceBits_replaceBits hd hq hc, replaceBits_packBits hd hq hc]
  rw [get_liftGate_packed _ hd hq hr hc,
    get_complementRotation y (packBits_lt n qs r) (packBits_lt n qs c), ← if_congr hback rfl rfl,
    ← if_congr hflip rfl rfl]
  by_cases hrow : replaceBits n qs (packBits n qs c) r = c
  · simp [hrow]
  · simp [hrow]

end

/-- The rotation with respect to the first axis of every one of distinct qubits, in any order: its
circuit has the matrix of the gate, which keeps each basis state by the cosine of half of the
angle and complements the bits of all listed qubits by minus the imaginary unit times the sine. -/
theorem flipRotation_circuit_eq_gate {qubits : List ℕ} (hne : qubits ≠ []) (hd : qubits.Nodup)
    {n : ℕ} (hq : ∀ q ∈ qubits, q < n) (value : Param ℝ → Except (Fault ℝ) ℝ)
    (theta : Param ℝ) (y tolerance : ℝ) (hy : value theta = .ok y) :
    let gate : Operation (Param ℝ) := ⟨.register .ms, qubits, theta, ()⟩
    ∃ c u v, gate.circuit? = some (.ok c) ∧
      gate.matrix? value tolerance = some (.ok u) ∧
      u.IsSquare (2 ^ qubits.length) ∧
      (∀ r < 2 ^ qubits.length, ∀ s < 2 ^ qubits.length, u.get r s =
        real (Real.cos (y / 2)) * (if r = s then 1 else 0) -
          imaginary 1 * real (Real.sin (y / 2)) *
            if ∀ p < qubits.length, bitAt qubits.length p r = 1 - bitAt qubits.length p s
              then 1 else 0) ∧
      c.unitary value tolerance n = .ok v ∧
      (∀ r < 2 ^ n, ∀ s < 2 ^ n, v.get r s =
        real (Real.cos (y / 2)) * (if r = s then 1 else 0) -
          imaginary 1 * real (Real.sin (y / 2)) *
            if ∀ p < n, bitAt n p r = if p ∈ qubits then 1 - bitAt n p s else bitAt n p s
              then 1 else 0) ∧
      gate.onRegister value tolerance n = .ok v ∧
      (embed u qubits n : Except (Fault ℝ) (CMat ℝ)) = .ok v ∧
      (qubits = List.range n → v = u) := by
  intro gate
  have hsq := isSquare_complementRotation qubits.length y
  have hqubits : gate.qubits = qubits := List.append_nil qubits
  have hmatrix : gate.matrix? value tolerance = some (.ok (complementRotation qubits.length y)) :=
    congrArg some (matrix_flipRotation hy)
  have hgate := Operation.onRegister_eq_ok (n := n) value tolerance gate hmatrix
    (by rwa [hqubits]) (by rwa [hqubits]) (by rwa [hqubits])
  rw [hqubits] at hgate
  refine ⟨_, _, _, congrArg some (flipRotation_eq hne theta), hmatrix, hsq, ?_,
    unitary_flipRotation value tolerance hne hd hq hy, ?_, hgate, embed_eq_ok hsq hd hq, ?_⟩
  · intro r hr s hs
    rw [get_complementRotation y hr hs, if_congr (eq_complement_iff hr hs) rfl rfl]
  · intro r hr s hs
    rw [get_liftGate_complementRotation hd hq y hr hs,
      if_congr (eq_complementBits_iff hd hq hr hs) rfl rfl]
  · exact liftGate_of_eq_range hsq

/-- Three qubits of a register of four, listed out of order, with a third of half a turn. -/
theorem flipRotation_circuit_on_three :
    ∃ c u v, Operation.circuit? (R := ℝ)
        ⟨.register .ms, [2, 0, 3], .literal (Real.pi / 3), ()⟩ = some (.ok c) ∧
      Operation.matrix? (Param.value fun _ => .error .undefined) 0
        ⟨.register .ms, [2, 0, 3], .literal (Real.pi / 3), ()⟩ = some (.ok u) ∧
      c.unitary (Param.value fun _ => .error .undefined) 0 4 = .ok v ∧
      (embed u [2, 0, 3] 4 : Except (Fault ℝ) (CMat ℝ)) = .ok v := by
  obtain ⟨c, u, v, hc, hu, -, -, hv, -, -, hembed, -⟩ :=
    flipRotation_circuit_eq_gate (by decide : [2, 0, 3] ≠ []) (by decide)
      (by decide : ∀ q ∈ [2, 0, 3], q < 4) (Param.value fun _ => .error .undefined)
      (.literal (Real.pi / 3)) (Real.pi / 3) 0 rfl
  exact ⟨c, u, v, hc, hu, hv, hembed⟩

end QuantumGates
