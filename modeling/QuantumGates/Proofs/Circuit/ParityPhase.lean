-- The matrix of the parity network. Each of its moves acts on the basis with a weight, so the
-- network does, by the run and by the count of the angle. The count makes it the phase of the
-- whole angle on the states in which all listed bits are 1, in whatever order they are listed.
import QuantumGates.Proofs.Circuit.ParityNetwork

namespace QuantumGates

/-! ## Moves on a register -/

namespace NetworkMove

/-- The move names qubits of a register of `n`, and a flip does not control itself. -/
def Valid (n : ℕ) : NetworkMove → Prop
  | flip control target => control < n ∧ target < n ∧ control ≠ target
  | phase qubit _ => qubit < n

section

variable {value : Param ℝ → Except (Fault ℝ) ℝ} {angle : Param ℝ} {x : ℝ} {n : ℕ}

/-- The gate of a move acts on the basis by the step, with the phase that the step counts. -/
theorem onRegister_gate (tolerance : ℝ) (hx : value angle = .ok x)
    (hneg : value angle.neg = .ok (-x)) {move : NetworkMove} (hv : move.Valid n) :
    ∃ m, (move.gate angle).onRegister value tolerance n = .ok m ∧
      m.ActsOnBasis n (fun c => (move.step n (c, 0)).1)
        fun c => .cis (x * ((move.step n (c, 0)).2 : ℤ)) := by
  cases move with
  | flip control target =>
    refine ⟨_, onRegister_cnot value tolerance hv.1 hv.2.1 hv.2.2, ?_⟩
    have hone : (fun c => Cplx.cis (x * ((step n (flip control target) (c, 0)).2 : ℤ))) =
        fun _ => 1 := by
      funext c
      show Cplx.cis (x * ((0 : ℤ) : ℝ)) = 1
      rw [Int.cast_zero, mul_zero, Cplx.cis_zero]
    rw [hone]
    exact actsOnBasis_flipGate hv.1 hv.2.1 hv.2.2
  | phase qubit forward =>
    cases forward with
    | true =>
      refine ⟨_, onRegister_phaseShift value tolerance hx hv, ?_⟩
      have hweight : (fun c => Cplx.cis (x * ((step n (phase qubit true) (c, 0)).2 : ℤ))) =
          fun c => Cplx.cis (x * bitAt n qubit c) := by
        funext c
        simp [step]
      rw [hweight]
      exact actsOnBasis_phaseGate x hv
    | false =>
      refine ⟨_, onRegister_phaseShift value tolerance hneg hv, ?_⟩
      have hweight : (fun c => Cplx.cis (x * ((step n (phase qubit false) (c, 0)).2 : ℤ))) =
          fun c => Cplx.cis (-x * bitAt n qubit c) := by
        funext c
        simp [step]
      rw [hweight]
      exact actsOnBasis_phaseGate (-x) hv

/-- A sequence of moves acts on the basis by its run, with the phase of its count. -/
theorem unitary_moves (tolerance : ℝ) (hx : value angle = .ok x)
    (hneg : value angle.neg = .ok (-x)) {moves : List NetworkMove}
    (hv : ∀ move ∈ moves, move.Valid n) :
    ∃ u, Circuit.unitary value tolerance (moves.map (gate angle)) n = .ok u ∧
      u.ActsOnBasis n (fun c => (run n moves (c, 0)).1)
        fun c => .cis (x * ((run n moves (c, 0)).2 : ℤ)) := by
  induction moves with
  | nil =>
    refine ⟨_, Circuit.unitary_nil value tolerance n, ?_⟩
    have hone : (fun c => Cplx.cis (x * ((run n [] (c, 0)).2 : ℤ))) = fun _ => 1 := by
      funext c
      show Cplx.cis (x * ((0 : ℤ) : ℝ)) = 1
      rw [Int.cast_zero, mul_zero, Cplx.cis_zero]
    rw [hone]
    exact Mat.actsOnBasis_identity n
  | cons move moves ih =>
    obtain ⟨m, hm, hactm⟩ := onRegister_gate tolerance hx hneg (hv move (by simp))
    obtain ⟨u, hu, hactu⟩ := ih fun next hnext => hv next (by simp [hnext])
    refine ⟨u.mul m, Circuit.unitary_cons value tolerance hm hu, ?_⟩
    have hrun : ∀ c, run n (move :: moves) (c, 0) =
        ((run n moves ((move.step n (c, 0)).1, 0)).1,
          (move.step n (c, 0)).2 + (run n moves ((move.step n (c, 0)).1, 0)).2) :=
      fun c => run_eq n moves _ _
    simp only [hrun]
    have hweight : (fun c => Cplx.cis (x *
        ((move.step n (c, 0)).2 + (run n moves ((move.step n (c, 0)).1, 0)).2 : ℤ))) =
        fun c => Cplx.cis (x * ((run n moves ((move.step n (c, 0)).1, 0)).2 : ℤ)) *
          Cplx.cis (x * ((move.step n (c, 0)).2 : ℤ)) := by
      funext c
      rw [← Cplx.cis_add, Int.cast_add]
      congr 1
      ring
    rw [hweight]
    exact hactu.mul hactm

end

end NetworkMove

/-! ## The moves of the network on a register -/

section

variable {n accumulator : ℕ} {lower : List ℕ}

theorem valid_foldMove (ha : accumulator < n) (hl : ∀ q ∈ lower, q < n)
    (hne : accumulator ∉ lower) {code : ℕ} (hc : code < 2 ^ lower.length) :
    ∀ move ∈ foldMove lower accumulator code, move.Valid n := by
  intro move hmem
  unfold foldMove at hmem
  split at hmem
  · cases hmem
  · rename_i h0
    have hbit : highestBit code < lower.length := (Nat.log2_lt h0).mpr hc
    rw [List.mem_singleton] at hmem
    subst hmem
    rw [List.getElem?_eq_getElem hbit, Option.getD_some]
    have hlow := List.getElem_mem hbit
    exact ⟨hl _ hlow, ha, fun heq => hne (heq ▸ hlow)⟩

theorem valid_blockMoves (ha : accumulator < n) (hl : ∀ q ∈ lower, q < n)
    (hne : accumulator ∉ lower) :
    ∀ move ∈ blockMoves lower accumulator, move.Valid n := by
  have hpos := Nat.two_pow_pos lower.length
  intro move hmem
  unfold blockMoves at hmem
  rcases List.mem_append.mp hmem with hstep | hlast
  · obtain ⟨m, hm, hmove⟩ := List.mem_flatMap.mp hstep
    have hlt := List.mem_range.mp hm
    unfold stepMoves at hmove
    rcases List.mem_append.mp hmove with hfold | hphase
    · exact valid_foldMove ha hl hne
        (Nat.xor_lt_two_pow (grayCode_lt hlt) (grayCode_lt (by omega))) move hfold
    · rw [List.mem_singleton] at hphase
      subst hphase
      exact ha
  · exact valid_foldMove ha hl hne (grayCode_lt (by omega)) move hlast

theorem valid_networkMoves {qs : List ℕ} (hd : qs.Nodup) (hq : ∀ q ∈ qs, q < n) :
    ∀ move ∈ networkMoves qs, move.Valid n := by
  intro move hmem
  unfold networkMoves at hmem
  obtain ⟨k, hk, hmove⟩ := List.mem_flatMap.mp hmem
  have hlt : k < qs.length := by simpa using hk
  rw [List.getElem?_eq_getElem hlt, Option.getD_some] at hmove
  exact valid_blockMoves (hq _ (List.getElem_mem hlt))
    (fun q hmem => hq q (List.mem_of_mem_take hmem)) (getElem_notMem_take hd hlt) move hmove

end

/-! ## The phase of the network -/

theorem powerOfTwo?_eq (k : ℕ) : (powerOfTwo? k : Except (Fault ℝ) ℝ) = .ok (2 ^ k) := by
  show Except.ok ((Nat.pow 2 k : ℕ) : ℝ) = _
  rw [Nat.pow_eq, Nat.cast_pow, Nat.cast_ofNat]

theorem parityNetwork_eq_ok {qs : List ℕ} (hne : qs ≠ []) {theta angle : Param ℝ}
    (h : theta.div (.literal (2 ^ (qs.length - 1))) = .ok angle) :
    parityNetwork qs theta = .ok ((networkMoves qs).map (NetworkMove.gate angle)) :=
  parityNetwork_of_share hne (powerOfTwo?_eq _) h

theorem div_two_pow (x : ℝ) (k : ℕ) :
    (Param.literal x).div (.literal (2 ^ k)) = .ok (.literal (x / 2 ^ k)) := by
  have hzero : (Param.literal (2 ^ k : ℝ)).isZero = false :=
    decide_eq_false (pow_ne_zero k two_ne_zero)
  unfold Param.div
  rw [hzero]
  rfl

/-- The network gives the phase `y` to the states of ones only when its angle has its share of
`y` as value. -/
theorem unitary_networkMoves {qs : List ℕ} (hne : qs ≠ []) (hd : qs.Nodup) {n : ℕ}
    (hq : ∀ q ∈ qs, q < n) {value : Param ℝ → Except (Fault ℝ) ℝ} {angle : Param ℝ} {y : ℝ}
    (tolerance : ℝ) (hx : value angle = .ok (y / 2 ^ (qs.length - 1)))
    (hneg : value angle.neg = .ok (-(y / 2 ^ (qs.length - 1)))) :
    Circuit.unitary value tolerance ((networkMoves qs).map (NetworkMove.gate angle)) n =
      .ok (Mat.diagonal (2 ^ n) fun r =>
        if ∀ q ∈ qs, bitAt n q r = 1 then
          Cplx.equivComplex.symm (Complex.exp (y * Complex.I)) else 1) := by
  obtain ⟨u, hu, hact⟩ :=
    NetworkMove.unitary_moves tolerance hx hneg (valid_networkMoves hd hq)
  have hrun := run_networkMoves hne hd hq
  rw [hu, hact.eq_diagonal]
  · intro c _
    rw [hrun]
  · intro c _
    rw [hrun]
    by_cases hall : ∀ q ∈ qs, bitAt n q c = 1
    · have hpow : (2 : ℝ) ^ (qs.length - 1) ≠ 0 := pow_ne_zero _ two_ne_zero
      simp only [if_pos hall]
      rw [← Cplx.cis_eq_exp, Int.cast_pow, Int.cast_ofNat, div_mul_cancel₀ y hpow]
    · simp only [if_neg hall]
      rw [Int.cast_zero, mul_zero, Cplx.cis_zero]

/-- The network on distinct qubits, in any order: its gates are the moves with a share of the
angle, the moves restore every basis state and count the share as often as makes the whole angle
on the states of ones only, and its matrix is the phase of the angle on these states. -/
theorem parityNetwork_phase {qubits : List ℕ} (hne : qubits ≠ []) (hd : qubits.Nodup) :
    (∀ (R : Type) [Scalar R] (theta : Param R),
      parityNetwork qubits theta = do
        let angle ← theta.div (.literal (← powerOfTwo? (qubits.length - 1)))
        return (networkMoves qubits).map (NetworkMove.gate angle)) ∧
    ∀ n, (∀ q ∈ qubits, q < n) →
      (∀ x, NetworkMove.run n (networkMoves qubits) (x, 0) =
        (x, if ∀ q ∈ qubits, bitAt n q x = 1 then 2 ^ (qubits.length - 1) else 0)) ∧
      (∀ (y tolerance : ℝ) (evaluate : String → Except (Fault ℝ) ℝ), ∃ c,
        parityNetwork qubits (.literal y) = .ok c ∧
          c.unitary (Param.value evaluate) tolerance n =
            .ok (Mat.diagonal (2 ^ n) fun r =>
              if ∀ q ∈ qubits, bitAt n q r = 1 then
                Cplx.equivComplex.symm (Complex.exp (y * Complex.I)) else 1)) ∧
      ∀ (theta angle : Param ℝ) (value : Param ℝ → Except (Fault ℝ) ℝ) (y tolerance : ℝ),
        theta.div (.literal (2 ^ (qubits.length - 1))) = .ok angle →
        value angle = .ok (y / 2 ^ (qubits.length - 1)) →
        value angle.neg = .ok (-(y / 2 ^ (qubits.length - 1))) → ∃ c,
        parityNetwork qubits theta = .ok c ∧
          c.unitary value tolerance n =
            .ok (Mat.diagonal (2 ^ n) fun r =>
              if ∀ q ∈ qubits, bitAt n q r = 1 then
                Cplx.equivComplex.symm (Complex.exp (y * Complex.I)) else 1) := by
  refine ⟨fun R _ theta => parityNetwork_eq hne theta, fun n hq => ?_⟩
  refine ⟨run_networkMoves hne hd hq, ?_, ?_⟩
  · intro y tolerance evaluate
    exact ⟨_, parityNetwork_eq_ok hne (div_two_pow y _),
      unitary_networkMoves hne hd hq tolerance rfl rfl⟩
  · intro theta angle value y tolerance hangle hx hneg
    exact ⟨_, parityNetwork_eq_ok hne hangle, unitary_networkMoves hne hd hq tolerance hx hneg⟩

/-- Three qubits of a register of four, listed out of order, with half a turn. -/
theorem parityNetwork_phase_on_three :
    ∃ c, parityNetwork [2, 0, 1] (.literal Real.pi) = .ok c ∧
      c.unitary (Param.value fun _ => .error .undefined) 0 4 =
        .ok (Mat.diagonal (2 ^ 4) fun r =>
          if ∀ q ∈ [2, 0, 1], bitAt 4 q r = 1 then
            Cplx.equivComplex.symm (Complex.exp (Real.pi * Complex.I)) else 1) :=
  ((parityNetwork_phase (by decide : [2, 0, 1] ≠ []) (by decide)).2 4 (by decide)).2.1
    Real.pi 0 _

end QuantumGates
