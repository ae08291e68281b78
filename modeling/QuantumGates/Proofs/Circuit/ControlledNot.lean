-- The circuit of the flip of the last qubit that all others control. There are four builders, by
-- the number of qubits, and each of them has the matrix that exchanges the last two states,
-- lifted to the qubits.
import QuantumGates.Proofs.Circuit.ControlledFlip
import QuantumGates.Proofs.Circuit.Fourier

namespace QuantumGates

open CMat

/-! ## The builders -/

section

variable {n : ℕ} (evaluate : String → Except (Fault ℝ) ℝ) (tolerance : ℝ)

theorem unitary_pauliX {q : ℕ} (hq : q < n) :
    Circuit.unitary (Param.value evaluate) tolerance [.pauliX q] n =
      .ok (liftGate (lastExchange 1) [q] n) := by
  have htable : (table flipRows : CMat ℝ) = lastExchange 1 := by
    refine Mat.IsSquare.ext (n := 2) ⟨rfl, rfl⟩ ⟨rfl, rfl⟩ fun r hr c hc => ?_
    rw [get_table hr hc, get_lastExchange (k := 1) hr hc]
    interval_cases r <;> interval_cases c <;> rfl
  have hmatrix : (Operation.pauliX q).matrix? (Param.value evaluate) tolerance =
      some (.ok (lastExchange 1)) := by
    rw [← htable]
    rfl
  refine Circuit.unitary_singleton _ _
    (Operation.onRegister_eq_ok _ _ _ hmatrix (isSquare_lastExchange 1) ?_ ?_)
  · exact List.nodup_singleton q
  · show ∀ s ∈ [q], s < n
    simpa using hq

theorem unitary_cnot {a b : ℕ} (hd : [a, b].Nodup) (hq : ∀ q ∈ [a, b], q < n) :
    Circuit.unitary (Param.value evaluate) tolerance [.cnot a b] n =
      .ok (liftGate (lastExchange 2) [a, b] n) := by
  have htable : (controlled flipRows : CMat ℝ) = lastExchange 2 := by
    refine Mat.IsSquare.ext (n := 4) ⟨rfl, rfl⟩ ⟨rfl, rfl⟩ fun r hr c hc => ?_
    rw [get_lastExchange (k := 2) hr hc]
    unfold controlled
    rw [get_table hr hc]
    interval_cases r <;> interval_cases c <;> rfl
  have hne : a ≠ b := by simpa using hd
  have hcnot := onRegister_cnot (Param.value evaluate) tolerance (hq a (by simp))
    (hq b (by simp)) hne
  unfold flipGate at hcnot
  rw [htable] at hcnot
  exact Circuit.unitary_singleton _ _ hcnot

/-- Hadamard gates around the part of the ladder on the target are enough, since the other part
commutes with them. -/
theorem unitary_toffoliCircuit {a b t : ℕ} (hd : [a, b, t].Nodup) (hq : ∀ q ∈ [a, b, t], q < n) :
    Circuit.unitary (Param.value evaluate) tolerance (toffoliCircuit a b t) n =
      .ok (liftGate (lastExchange 3) [a, b, t] n) := by
  obtain ⟨-, hat, hbt⟩ := distinct_of_nodup hd
  obtain ⟨ha, hb, ht⟩ := lt_of_forall_mem hq
  have hgate := onRegister_hadamard (Param.value evaluate) tolerance ht
  have hhead := unitary_signHead evaluate tolerance hd hq
  have htail := unitary_signTail evaluate tolerance hd hq
  have hH : (hadamardGate n t).IsSquare (2 ^ n) := isSquare_liftGate _ _ _
  have hhead' := Mat.isSquare_diagonal (2 ^ n) fun x =>
    Cplx.cis (Real.pi / 4 * headCount n a b t x)
  have htail' := Mat.isSquare_diagonal (2 ^ n) fun x =>
    Cplx.cis (Real.pi / 4 * tailCount n a b x)
  have hcommute : (hadamardGate n t).mul
      (Mat.diagonal (2 ^ n) fun x => Cplx.cis (Real.pi / 4 * tailCount n a b x)) =
        (Mat.diagonal (2 ^ n) fun x => Cplx.cis (Real.pi / 4 * tailCount n a b x)).mul
          (hadamardGate n t) := by
    refine hadamardGate_mul_diagonal ht fun d hd' x => ?_
    rw [tailCount_setBit ha hb ht hat hbt hd']
  have hcircuit := Circuit.unitary_append _ _ (Circuit.unitary_cons _ _ hgate hhead)
    (Circuit.unitary_cons _ _ hgate htail)
  refine hcircuit.trans (congrArg Except.ok ?_)
  rw [← hcommute, Mat.assoc_of_isSquare hH htail' (hhead'.mul hH),
    ← Mat.assoc_of_isSquare htail' hhead' hH, diagonal_tail_mul_head]
  have hd' : ([a, b] ++ [t]).Nodup := hd
  have hq' : ∀ q ∈ [a, b] ++ [t], q < n := hq
  simpa using hadamard_sign_hadamard hd' hq'

theorem unitary_networkNot {controls : List ℕ} {t : ℕ} (hd : (controls ++ [t]).Nodup)
    (hq : ∀ q ∈ controls ++ [t], q < n) :
    ∃ c, networkNot (controls ++ [t]) = .ok c ∧
      c.unitary (Param.value evaluate) tolerance n =
        .ok (liftGate (lastExchange (controls ++ [t]).length) (controls ++ [t]) n) := by
  have hne : controls ++ [t] ≠ [] := by simp
  have hgate := onRegister_hadamard (Param.value evaluate) tolerance (hq t (by simp))
  have hvalue : Param.value evaluate
      (.literal (Real.pi / 2 ^ ((controls ++ [t]).length - 1))) =
        .ok (Real.pi / 2 ^ ((controls ++ [t]).length - 1)) := rfl
  have hnetwork := unitary_networkMoves hne hd hq tolerance hvalue rfl
  rw [← Cplx.cis_eq_exp] at hnetwork
  have hcircuit := Circuit.unitary_append _ _ (Circuit.unitary_cons _ _ hgate hnetwork)
    (Circuit.unitary_singleton _ _ hgate)
  refine ⟨_, ?_, hcircuit.trans (congrArg Except.ok (hadamard_sign_hadamard hd hq))⟩
  unfold networkNot
  rw [Exact.pi_eq, parityNetwork_eq_ok hne (div_two_pow Real.pi _), List.getLastD_concat]
  rfl

/-- Whichever builder makes it, the circuit has the lifted exchange as its matrix. -/
theorem unitary_controlledNot {qs : List ℕ} (hne : qs ≠ []) (hd : qs.Nodup)
    (hq : ∀ q ∈ qs, q < n) :
    ∃ c, controlledNot qs = .ok c ∧
      c.unitary (Param.value evaluate) tolerance n =
        .ok (liftGate (lastExchange qs.length) qs n) := by
  match qs, hne, hd, hq with
  | [q], _, _, hq => exact ⟨_, rfl, unitary_pauliX evaluate tolerance (hq q (by simp))⟩
  | [a, b], _, hd, hq => exact ⟨_, rfl, unitary_cnot evaluate tolerance hd hq⟩
  | [a, b, t], _, hd, hq => exact ⟨_, rfl, unitary_toffoliCircuit evaluate tolerance hd hq⟩
  | a :: b :: c :: d :: rest, hne, hd, hq =>
    have hsplit := List.dropLast_append_getLast hne
    rw [← hsplit] at hd hq
    obtain ⟨circuit, hnetwork, hu⟩ := unitary_networkNot evaluate tolerance hd hq
    rw [hsplit] at hnetwork hu
    exact ⟨circuit, hnetwork, hu⟩

end

/-! ## The gate -/

/-- The flip of the last of distinct qubits that all others control is its circuit, whichever
builder makes it: both send every basis state to the one with the last listed bit flipped if all
other listed bits are 1, without a phase. The gate on four named qubits has the same circuit and
the same matrix. -/
theorem controlledNot_circuit_eq_gate {qubits : List ℕ} {n : ℕ} (hne : qubits ≠ [])
    (hd : qubits.Nodup) (hq : ∀ q ∈ qubits, q < n) (evaluate : String → Except (Fault ℝ) ℝ)
    (tolerance : ℝ) :
    let gate : Operation (Param ℝ) := ⟨.register .cnot, qubits, ()⟩
    ∃ c u v, gate.circuit? = some (.ok c) ∧
      gate.matrix? (Param.value evaluate) tolerance = some (.ok u) ∧
      u.IsSquare (2 ^ qubits.length) ∧
      c.unitary (Param.value evaluate) tolerance n = .ok v ∧
      gate.onRegister (Param.value evaluate) tolerance n = .ok v ∧
      (embed u qubits n : Except (Fault ℝ) (CMat ℝ)) = .ok v ∧
      v.ActsOnBasis n (flipIfAll n qubits.dropLast (qubits.getLast hne)) (fun _ => 1) ∧
      (qubits = List.range n → v = u) ∧
      ∀ a b d t, qubits = [a, b, d, t] →
        let triple : Operation (Param ℝ) := ⟨.four .tripleControlledPauliX, a, b, d, t, ()⟩
        triple.qubits = qubits ∧ triple.circuit? = gate.circuit? ∧
          triple.matrix? (Param.value evaluate) tolerance =
            gate.matrix? (Param.value evaluate) tolerance := by
  intro gate
  obtain ⟨c, hc, hu⟩ := unitary_controlledNot evaluate tolerance hne hd hq
  have hmatrix : gate.matrix? (Param.value evaluate) tolerance =
      some (.ok (lastExchange qubits.length)) := congrArg some (matrix_controlledNot _ hne)
  have hsq := isSquare_lastExchange qubits.length
  have hqubits : gate.qubits = qubits := List.append_nil qubits
  have hgate := Operation.onRegister_eq_ok (n := n) _ _ gate hmatrix (by rwa [hqubits])
    (by rwa [hqubits]) (by rwa [hqubits])
  rw [hqubits] at hgate
  refine ⟨c, _, _, congrArg some hc, hmatrix, hsq, hu, hgate, embed_eq_ok hsq hd hq, ?_, ?_, ?_⟩
  · have hsplit := List.dropLast_append_getLast hne
    have hact := actsOnBasis_lastExchange (n := n) (by rwa [hsplit]) (by rwa [hsplit])
    rwa [hsplit] at hact
  · exact liftGate_of_eq_range hsq
  · rintro a b d t rfl
    refine ⟨rfl, ?_, hmatrix.symm⟩
    rfl

/-- Four qubits of a register of five, listed out of order. -/
theorem controlledNot_circuit_on_four :
    ∃ c v, Operation.circuit? (R := ℝ) ⟨.register .cnot, [2, 0, 3, 1], ()⟩ = some (.ok c) ∧
      c.unitary (Param.value fun _ => .error .undefined) 0 5 = .ok v ∧
      v.ActsOnBasis 5 (flipIfAll 5 [2, 0, 3] 1) (fun _ => 1) ∧
      Operation.circuit? (R := ℝ) ⟨.four .tripleControlledPauliX, 2, 0, 3, 1, ()⟩ =
        some (.ok c) := by
  obtain ⟨c, -, v, hc, -, -, hv, -, -, hact, -, htriple⟩ :=
    controlledNot_circuit_eq_gate (by decide : [2, 0, 3, 1] ≠ []) (by decide)
      (by decide : ∀ q ∈ [2, 0, 3, 1], q < 5) (fun _ => .error .undefined) 0
  exact ⟨c, v, hc, hv, hact, (htriple 2 0 3 1 rfl).2.1.trans hc⟩

end QuantumGates
