-- The circuits of the gates on three qubits. All of them are the ladder of three qubits, which
-- gives a phase to the state of ones: alone, between Hadamard gates, before a phase on each
-- qubit, or between two controlled flips.
import QuantumGates.Proofs.Circuit.ControlledNot

namespace QuantumGates

open CMat

/-! ## How many bits are one -/

theorem bitCount_go_eq {fuel k : ℕ} (h : k ≤ fuel) :
    bitCount.go fuel k = (Nat.digits 2 k).sum := by
  induction fuel generalizing k with
  | zero =>
    have hk : k = 0 := by omega
    simp [hk, bitCount.go]
  | succ fuel ih =>
    rw [bitCount.go, ih (by omega)]
    rcases Nat.eq_zero_or_pos k with hk | hk
    · simp [hk]
    · rw [Nat.digits_def' (by omega) hk, List.sum_cons]

theorem bitCount_eq (k : ℕ) : bitCount k = k % 2 + bitCount (k / 2) := by
  unfold bitCount
  rw [bitCount_go_eq le_rfl, bitCount_go_eq le_rfl]
  rcases Nat.eq_zero_or_pos k with hk | hk
  · simp [hk]
  · rw [Nat.digits_def' (by omega) hk, List.sum_cons]

/-- How many of the listed bits are one. -/
def onesCount (n : ℕ) (qs : List ℕ) (x : ℕ) : ℕ := (qs.map fun q => bitAt n q x).sum

theorem bitCount_packBits (n : ℕ) (qs : List ℕ) (x : ℕ) :
    bitCount (packBits n qs x) = onesCount n qs x := by
  induction qs using List.reverseRecOn with
  | nil => rfl
  | append_singleton qs q ih =>
    have hb := bitAt_lt n q x
    have hmod : (2 * packBits n qs x + bitAt n q x) % 2 = bitAt n q x := by omega
    have hdiv : (2 * packBits n qs x + bitAt n q x) / 2 = packBits n qs x := by omega
    rw [packBits_append_singleton, bitCount_eq, hmod, hdiv, ih]
    simp [onesCount, Nat.add_comm]

/-! ## Phases -/

section

variable {n : ℕ} (evaluate : String → Except (Fault ℝ) ℝ) (tolerance : ℝ)

/-- A phase on the last state of the listed qubits. -/
theorem liftGate_lastPhase {qs : List ℕ} (hd : qs.Nodup) (hq : ∀ q ∈ qs, q < n) (y : ℝ) :
    liftGate (ThreeKind.matrix.lastPhase (2 ^ qs.length) (.cis y)) qs n = onesPhase n qs y := by
  unfold ThreeKind.matrix.lastPhase onesPhase
  rw [liftGate_diagonal _ hd hq]
  congr 1
  funext x
  have hlt := packBits_lt n qs x
  have hlast : packBits n qs x + 1 = 2 ^ qs.length ↔ ∀ q ∈ qs, bitAt n q x = 1 := by
    rw [← packBits_eq_last_iff]
    omega
  simp only [hlast]

/-- The same phase on each of several qubits counts those that are one. -/
theorem unitary_phaseOnEach {qs : List ℕ} (hq : ∀ q ∈ qs, q < n) (y : ℝ) :
    Circuit.unitary (Param.value evaluate) tolerance (phaseOnEach qs (.literal y)) n =
      .ok (Mat.diagonal (2 ^ n) fun x => .cis (y * onesCount n qs x)) := by
  induction qs with
  | nil =>
    have hone : (Mat.diagonal (2 ^ n) fun x => Cplx.cis (y * onesCount n [] x)) =
        Mat.identity (2 ^ n) := by
      refine ((Mat.actsOnBasis_identity n).eq_diagonal (fun _ _ => rfl) fun x _ => ?_).symm
      simp [onesCount]
    rw [hone]
    exact Circuit.unitary_nil _ _ n
  | cons q qs ih =>
    have hq0 : q < n := hq q (by simp)
    have hvalue : Param.value evaluate (.literal y) = .ok y := rfl
    have hgate := onRegister_phaseShift (Param.value evaluate) tolerance hvalue hq0
    have hdiagonal := (actsOnBasis_phaseGate y hq0).eq_diagonal (fun _ _ => rfl) fun _ _ => rfl
    have hcircuit := Circuit.unitary_cons _ _ hgate (ih fun p hp => hq p (by simp [hp]))
    refine hcircuit.trans (congrArg Except.ok ?_)
    rw [hdiagonal, Mat.diagonal_mul_diagonal]
    congr 1
    funext x
    rw [← Cplx.cis_add]
    simp only [onesCount, List.map_cons, List.sum_cons]
    push_cast
    ring_nf

/-- Phases that count the ones, with one more on the last state. -/
theorem liftGate_countPhase {qs : List ℕ} (hd : qs.Nodup) (hq : ∀ q ∈ qs, q < n) (y phi : ℝ) :
    liftGate (Mat.diagonal (2 ^ qs.length) fun k =>
        if k = 2 ^ qs.length - 1 then countPhase phi k * .cis y else countPhase phi k) qs n =
      (Mat.diagonal (2 ^ n) fun x => .cis (phi * onesCount n qs x)).mul (onesPhase n qs y) := by
  unfold onesPhase
  rw [liftGate_diagonal _ hd hq, Mat.diagonal_mul_diagonal]
  congr 1
  funext x
  unfold countPhase
  rw [bitCount_packBits, Exact.whole_eq]
  by_cases hall : ∀ q ∈ qs, bitAt n q x = 1
  · rw [if_pos (packBits_eq_last_iff.mpr hall), if_pos hall]
  · rw [if_neg fun h => hall (packBits_eq_last_iff.mp h), if_neg hall, mul_one]

end

/-! ## The controlled exchange -/

section

variable {n : ℕ}

/-- The bits after a doubly controlled flip between two controlled flips. -/
theorem bitAt_flips {c s t q x : ℕ} (hd : [c, s, t].Nodup) (hq : ∀ q ∈ [c, s, t], q < n)
    (hqn : q < n) :
    bitAt n q (flipIf n t s (flipIfAll n [c, s] t (flipIf n t s x))) =
      if q = s then (if bitAt n c x = 1 then bitAt n t x else bitAt n s x)
      else if q = t then (if bitAt n c x = 1 then bitAt n s x else bitAt n t x)
      else bitAt n q x := by
  obtain ⟨hcs, hct, hst⟩ := distinct_of_nodup hd
  obtain ⟨hc, hs, ht⟩ := lt_of_forall_mem hq
  -- The flip in the middle reads the second bit after the first flip has changed it.
  have hall : (∀ p ∈ [c, s], bitAt n p (flipIf n t s x) = 1) ↔
      bitAt n c x = 1 ∧ (bitAt n s x + bitAt n t x) % 2 = 1 := by
    simp [bitAt_flipIf hs hc, bitAt_flipIf hs hs, hcs]
  simp only [bitAt_flipIf hs hqn, bitAt_flipIf hs hs, bitAt_flipIf hs ht,
    bitAt_flipIfAll ht hqn, bitAt_flipIfAll ht hs, bitAt_flipIfAll ht ht, hall, hst, hst.symm,
    if_true, if_false, false_and, true_and]
  by_cases hqs : q = s
  · rw [if_pos hqs, if_pos hqs]
    rcases bitAt_cases n c x with h | h <;> rcases bitAt_cases n s x with h' | h' <;>
      rcases bitAt_cases n t x with h'' | h'' <;> simp [h, h', h'']
  · by_cases hqt : q = t
    · rcases bitAt_cases n c x with h | h <;> rcases bitAt_cases n s x with h' | h' <;>
        rcases bitAt_cases n t x with h'' | h'' <;> simp [h, h', h'', hqt, hst.symm]
    · simp [hqs, hqt]

/-- A doubly controlled flip between two controlled flips exchanges the last two bits if the
first one is 1. -/
theorem flips_eq_exchange {c s t x : ℕ} (hd : [c, s, t].Nodup) (hq : ∀ q ∈ [c, s, t], q < n)
    (hx : x < 2 ^ n) :
    flipIf n t s (flipIfAll n [c, s] t (flipIf n t s x)) =
      replaceBits n [c, s, t] (Equiv.swap 5 6 (packBits n [c, s, t] x)) x := by
  obtain ⟨hcs, hct, hst⟩ := distinct_of_nodup hd
  obtain ⟨hc, hs, ht⟩ := lt_of_forall_mem hq
  have hpack : packBits n [c, s, t] (flipIf n t s (flipIfAll n [c, s] t (flipIf n t s x))) =
      Equiv.swap 5 6 (packBits n [c, s, t] x) := by
    rw [packBits_three, packBits_three, bitAt_flips hd hq hc, bitAt_flips hd hq hs,
      bitAt_flips hd hq ht, Equiv.swap_apply_def]
    rcases bitAt_cases n c x with h | h <;> rcases bitAt_cases n s x with h' | h' <;>
      rcases bitAt_cases n t x with h'' | h'' <;> simp [h, h', h'', hcs, hct, hst.symm]
  rw [← hpack]
  refine eq_replaceBits hd hq (flipIf_lt hs (flipIfAll_lt _ ht (flipIf_lt hs hx))) hx
    fun q hqn hmem => ?_
  simp only [List.mem_cons, List.not_mem_nil, or_false, not_or] at hmem
  rw [bitAt_flips hd hq hqn, if_neg hmem.2.1, if_neg hmem.2.2]

/-- The doubly controlled flip between two controlled flips is the controlled exchange. -/
theorem unitary_controlledSwap {c s t : ℕ} (evaluate : String → Except (Fault ℝ) ℝ)
    (tolerance : ℝ) (hd : [c, s, t].Nodup) (hq : ∀ q ∈ [c, s, t], q < n) :
    Circuit.unitary (Param.value evaluate) tolerance
        (.cnot t s :: toffoliCircuit c s t ++ [.cnot t s]) n =
      .ok (liftGate (exchange 8 5 6) [c, s, t] n) := by
  obtain ⟨-, -, hst⟩ := distinct_of_nodup hd
  obtain ⟨-, hs, ht⟩ := lt_of_forall_mem hq
  have hflip := onRegister_cnot (Param.value evaluate) tolerance ht hs hst.symm
  have htoffoli := unitary_toffoliCircuit evaluate tolerance hd hq
  have hcircuit := Circuit.unitary_append _ _ (Circuit.unitary_cons _ _ hflip htoffoli)
    (Circuit.unitary_singleton _ _ hflip)
  refine hcircuit.trans (congrArg Except.ok ?_)
  have hF := actsOnBasis_flipGate ht hs hst.symm
  have hL : (liftGate (lastExchange 3) [c, s, t] n).ActsOnBasis n (flipIfAll n [c, s] t)
      fun _ => 1 := by
    have hd' : ([c, s] ++ [t]).Nodup := hd
    have hq' : ∀ q ∈ [c, s] ++ [t], q < n := hq
    simpa using actsOnBasis_lastExchange hd' hq'
  have hE := (actsOnBasis_exchange (k := 3) (a := 5) (b := 6) (by omega) (by omega)).lift hd hq
  exact (hF.mul (hL.mul hF)).ext hE (fun x hx => flips_eq_exchange hd hq hx) fun _ _ => by simp

end

/-! ## The gates -/

section

variable {n : ℕ} (evaluate : String → Except (Fault ℝ) ℝ) (tolerance : ℝ)

/-- The circuit of a gate on three qubits has the matrix of the gate, lifted to them. -/
theorem ThreeKind.unitary_circuit (k : ThreeKind) (args : Args (Param ℝ) k.fields)
    (hp : Operation.isParametrized ⟨.three k, args⟩ = false)
    (hd : (Operation.qubits ⟨.three k, args⟩).Nodup)
    (hq : ∀ q ∈ Operation.qubits ⟨.three k, args⟩, q < n) :
    ∃ c u, k.circuit args = .ok c ∧ k.matrix (Param.value evaluate) args = .ok u ∧
      u.IsSquare (2 ^ (Operation.qubits ⟨.three k, args⟩).length) ∧
      c.unitary (Param.value evaluate) tolerance n =
        .ok (liftGate u (Operation.qubits ⟨.three k, args⟩) n) := by
  cases k with
  | controlledControlledPauliZ =>
    obtain ⟨a, b, t, ⟨⟩⟩ := args
    refine ⟨_, _, rfl, rfl, ⟨rfl, rfl⟩, ?_⟩
    rw [← Cplx.cis_pi]
    exact (unitary_signLadder evaluate tolerance hd hq).trans
      (congrArg Except.ok (liftGate_lastPhase hd hq Real.pi).symm)
  | controlledControlledPhaseShift =>
    obtain ⟨a, b, t, y | _, ⟨⟩⟩ := args <;> cases hp
    obtain ⟨c, hc, hu⟩ := unitary_phaseLadder evaluate tolerance hd hq y
    exact ⟨c, _, hc, rfl, ⟨rfl, rfl⟩,
      hu.trans (congrArg Except.ok (liftGate_lastPhase hd hq y).symm)⟩
  | toffoli =>
    obtain ⟨a, b, t, ⟨⟩⟩ := args
    exact ⟨_, _, rfl, rfl, ⟨rfl, rfl⟩, unitary_toffoliCircuit evaluate tolerance hd hq⟩
  | controlledSwap =>
    obtain ⟨c, s, t, ⟨⟩⟩ := args
    exact ⟨_, _, rfl, rfl, ⟨rfl, rfl⟩, unitary_controlledSwap evaluate tolerance hd hq⟩
  | phaseShiftedControlledControlledZ =>
    obtain ⟨a, b, t, x | _, ⟨⟩⟩ := args <;> cases hp
    refine ⟨_, _, rfl, rfl, ⟨rfl, rfl⟩, ?_⟩
    rw [← Cplx.cis_pi]
    exact (Circuit.unitary_append _ _ (unitary_signLadder evaluate tolerance hd hq)
      (unitary_phaseOnEach evaluate tolerance hq x)).trans
        (congrArg Except.ok (liftGate_countPhase hd hq Real.pi x).symm)
  | phaseShiftedControlledControlledPhase =>
    obtain ⟨a, b, t, y | _, x | _, ⟨⟩⟩ := args <;> cases hp
    obtain ⟨c, hc, hu⟩ := unitary_phaseLadder evaluate tolerance hd hq y
    refine ⟨c ++ phaseOnEach [a, b, t] (.literal x), _, ?_, rfl, ⟨rfl, rfl⟩, ?_⟩
    · unfold ThreeKind.circuit
      simp only [hc]
      rfl
    · exact (Circuit.unitary_append _ _ hu (unitary_phaseOnEach evaluate tolerance hq x)).trans
        (congrArg Except.ok (liftGate_countPhase hd hq y x).symm)

end

/-- The circuit of a gate on three qubits of a register, without free parameters, has the matrix
of the gate, lifted to its qubits. -/
theorem threeQubit_circuit_eq_gate (k : ThreeKind) (args : Args (Param ℝ) k.fields) {n : ℕ}
    (hp : Operation.isParametrized ⟨.three k, args⟩ = false)
    (hd : (Operation.qubits ⟨.three k, args⟩).Nodup)
    (hq : ∀ q ∈ Operation.qubits ⟨.three k, args⟩, q < n)
    (evaluate : String → Except (Fault ℝ) ℝ) (tolerance : ℝ) :
    let gate : Operation (Param ℝ) := ⟨.three k, args⟩
    ∃ c u v, gate.circuit? = some (.ok c) ∧
      gate.matrix? (Param.value evaluate) tolerance = some (.ok u) ∧
      u.IsSquare (2 ^ gate.qubits.length) ∧
      c.unitary (Param.value evaluate) tolerance n = .ok v ∧
      (embed u gate.qubits n : Except (Fault ℝ) (CMat ℝ)) = .ok v ∧
      gate.onRegister (Param.value evaluate) tolerance n = .ok v := by
  intro gate
  obtain ⟨c, u, hc, hu, hsq, hv⟩ := k.unitary_circuit evaluate tolerance args hp hd hq
  exact ⟨c, u, _, congrArg some hc, congrArg some hu, hsq, hv, embed_eq_ok hsq hd hq,
    Operation.onRegister_eq_ok _ _ gate (congrArg some hu) hsq hd hq⟩

/-- The doubly controlled phase with a phase on each qubit, on three qubits of a register of four,
listed out of order. -/
theorem phased_circuit_on_three :
    ∃ c u v, Operation.circuit? (R := ℝ) ⟨.three .phaseShiftedControlledControlledPhase,
        3, 0, 2, .literal 1, .literal (Real.pi / 3), ()⟩ = some (.ok c) ∧
      c.unitary (Param.value fun _ => .error .undefined) 0 4 = .ok v ∧
      (embed u [3, 0, 2] 4 : Except (Fault ℝ) (CMat ℝ)) = .ok v := by
  obtain ⟨c, u, v, hc, -, -, hv, hembed, -⟩ :=
    threeQubit_circuit_eq_gate .phaseShiftedControlledControlledPhase
      (3, 0, 2, .literal 1, .literal (Real.pi / 3), ()) (n := 4) rfl (by decide) (by decide)
      (fun _ => .error .undefined) 0
  exact ⟨c, u, v, hc, hv, hembed⟩

end QuantumGates
