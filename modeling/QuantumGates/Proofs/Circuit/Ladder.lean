-- The ladder of three qubits. Its gates are moves of the parity network, so they follow a basis
-- state and count the phases that meet a 1. The part on the target and the part on the controls
-- both restore the state, and together they count four quarters of the angle on the state of
-- ones and nothing on the others.
import QuantumGates.Proofs.Circuit.ParityPhase

namespace QuantumGates

open CMat

/-! ## Moves -/

/-- The moves on the target. -/
def headMoves (a b t : ℕ) : List NetworkMove :=
  [.flip b t, .phase t false, .flip a t, .phase t true, .flip b t, .phase t false, .flip a t,
    .phase b true, .phase t true]

/-- The moves on the controls. -/
def tailMoves (a b : ℕ) : List NetworkMove :=
  [.flip a b, .phase a true, .phase b false, .flip a b]

/-- What the moves on the target count. -/
def headCount (n a b t x : ℕ) : ℤ :=
  bitAt n b x + bitAt n t x + ((bitAt n t x + bitAt n b x + bitAt n a x) % 2 : ℕ) -
    ((bitAt n t x + bitAt n b x) % 2 : ℕ) - ((bitAt n t x + bitAt n a x) % 2 : ℕ)

/-- What the moves on the controls count. -/
def tailCount (n a b x : ℕ) : ℤ := bitAt n a x - ((bitAt n b x + bitAt n a x) % 2 : ℕ)

section

variable {n a b t : ℕ}

theorem distinct_of_nodup (hd : [a, b, t].Nodup) : a ≠ b ∧ a ≠ t ∧ b ≠ t := by
  simpa [and_assoc] using hd

theorem lt_of_forall_mem (hq : ∀ q ∈ [a, b, t], q < n) : a < n ∧ b < n ∧ t < n := by
  simpa using hq

/-- Flips of one target by two controls, in turn, undo each other. -/
theorem flipIf_in_turn (ha : a < n) (hb : b < n) (ht : t < n) (hat : a ≠ t) (hbt : b ≠ t)
    {x : ℕ} (hx : x < 2 ^ n) :
    flipIf n a t (flipIf n b t (flipIf n a t (flipIf n b t x))) = x := by
  refine eq_of_bitAt (flipIf_lt ht (flipIf_lt ht (flipIf_lt ht (flipIf_lt ht hx)))) hx
    fun q hq => ?_
  simp only [bitAt_flipIf ht ht, bitAt_flipIf ht ha, bitAt_flipIf ht hb, bitAt_flipIf ht hq,
    if_neg hat, if_neg hbt, if_true]
  by_cases hqt : q = t
  · have := bitAt_lt n t x
    rw [if_pos hqt, hqt]
    omega
  · rw [if_neg hqt, if_neg hqt, if_neg hqt, if_neg hqt]

theorem run_headMoves (ha : a < n) (hb : b < n) (ht : t < n) (hat : a ≠ t) (hbt : b ≠ t)
    {x : ℕ} (hx : x < 2 ^ n) :
    NetworkMove.run n (headMoves a b t) (x, 0) = (x, headCount n a b t x) := by
  have hback := flipIf_in_turn ha hb ht hat hbt hx
  have hlast : (((bitAt n t x + bitAt n b x) % 2 + bitAt n a x) % 2 + bitAt n b x) % 2 =
      (bitAt n t x + bitAt n a x) % 2 := by
    omega
  simp only [headMoves, NetworkMove.run, NetworkMove.step, hback]
  simp only [bitAt_flipIf ht ht, bitAt_flipIf ht ha, bitAt_flipIf ht hb, if_neg hat, if_neg hbt,
    if_true]
  unfold headCount
  rw [hlast, Nat.mod_add_mod]
  simp
  ring

theorem run_tailMoves (ha : a < n) (hb : b < n) (hab : a ≠ b) (x : ℕ) :
    NetworkMove.run n (tailMoves a b) (x, 0) = (x, tailCount n a b x) := by
  have hback := flipIf_flipIf (r := x) ha hb hab
  simp only [tailMoves, NetworkMove.run, NetworkMove.step, hback, bitAt_flipIf hb ha,
    bitAt_flipIf hb hb, if_neg hab, if_true]
  unfold tailCount
  simp
  ring

/-- Both parts count four on the state of ones, and nothing on the others. -/
theorem headCount_add_tailCount (n a b t x : ℕ) :
    headCount n a b t x + tailCount n a b x =
      if ∀ q ∈ [a, b, t], bitAt n q x = 1 then 4 else 0 := by
  unfold headCount tailCount
  rcases bitAt_cases n a x with ha | ha <;> rcases bitAt_cases n b x with hb | hb <;>
    rcases bitAt_cases n t x with ht | ht <;> simp [ha, hb, ht]

/-- The controls alone decide what the moves on them count. -/
theorem tailCount_setBit (ha : a < n) (hb : b < n) (ht : t < n) (hat : a ≠ t) (hbt : b ≠ t)
    {d : ℕ} (hd : d < 2) (x : ℕ) : tailCount n a b (setBit n t d x) = tailCount n a b x := by
  unfold tailCount
  rw [bitAt_setBit hd ha ht, bitAt_setBit hd hb ht, if_neg hat, if_neg hbt]

/-! ## Phases -/

section

variable {value : Param ℝ → Except (Fault ℝ) ℝ} {angle : Param ℝ} {y : ℝ} (tolerance : ℝ)

/-- Moves that restore every basis state weigh it with the phase of their count. -/
theorem unitary_of_restoring (hy : value angle = .ok y) (hneg : value angle.neg = .ok (-y))
    {moves : List NetworkMove} {count : ℕ → ℤ} (hv : ∀ move ∈ moves, move.Valid n)
    (hrun : ∀ x < 2 ^ n, NetworkMove.run n moves (x, 0) = (x, count x)) :
    Circuit.unitary value tolerance (moves.map (NetworkMove.gate angle)) n =
      .ok (Mat.diagonal (2 ^ n) fun x => .cis (y * count x)) := by
  obtain ⟨u, hu, hact⟩ := NetworkMove.unitary_moves tolerance hy hneg hv
  rw [hu, hact.eq_diagonal]
  · intro x hx
    rw [hrun x hx]
  · intro x hx
    rw [hrun x hx]

theorem unitary_ladderHead (hy : value angle = .ok y) (hneg : value angle.neg = .ok (-y))
    (hd : [a, b, t].Nodup) (hq : ∀ q ∈ [a, b, t], q < n) :
    Circuit.unitary value tolerance
        (ladderHead (Operation.phaseShift · angle) (Operation.phaseShift · angle.neg) a b t) n =
      .ok (Mat.diagonal (2 ^ n) fun x => .cis (y * headCount n a b t x)) := by
  obtain ⟨-, hat, hbt⟩ := distinct_of_nodup hd
  obtain ⟨ha, hb, ht⟩ := lt_of_forall_mem hq
  have hvalid : ∀ move ∈ headMoves a b t, move.Valid n := by
    simp [headMoves, NetworkMove.Valid, ha, hb, ht, hat, hbt]
  exact unitary_of_restoring tolerance hy hneg hvalid fun x hx =>
    run_headMoves ha hb ht hat hbt hx

theorem unitary_ladderTail (hy : value angle = .ok y) (hneg : value angle.neg = .ok (-y))
    (hd : [a, b, t].Nodup) (hq : ∀ q ∈ [a, b, t], q < n) :
    Circuit.unitary value tolerance
        (ladderTail (Operation.phaseShift · angle) (Operation.phaseShift · angle.neg) a b) n =
      .ok (Mat.diagonal (2 ^ n) fun x => .cis (y * tailCount n a b x)) := by
  obtain ⟨hab, -, -⟩ := distinct_of_nodup hd
  obtain ⟨ha, hb, -⟩ := lt_of_forall_mem hq
  have hvalid : ∀ move ∈ tailMoves a b, move.Valid n := by
    simp [tailMoves, NetworkMove.Valid, ha, hb, hab]
  exact unitary_of_restoring tolerance hy hneg hvalid fun x _ => run_tailMoves ha hb hab x

end

/-! ## Quarters of half a turn -/

section

variable (evaluate : String → Except (Fault ℝ) ℝ) (tolerance : ℝ)

theorem table_eq_diagonalOf (w z : Cplx ℝ) : table [[w, 0], [0, z]] = diagonalOf [w, z] := by
  refine Mat.IsSquare.ext (n := 2) ⟨rfl, rfl⟩ ⟨rfl, rfl⟩ fun r hr c hc => ?_
  have hdiagonal : (diagonalOf [w, z]).get r c = if r = c then ([w, z][r]?).getD 0 else 0 :=
    Mat.get_diagonal _ hr hc
  rw [get_table hr hc, hdiagonal]
  interval_cases r <;> interval_cases c <;> rfl

/-- The gate of an eighth of a turn is the phase of this angle. -/
theorem onRegister_tGate (q : ℕ) :
    (Operation.tGate q).onRegister (Param.value evaluate) tolerance n =
      (Operation.phaseShift q (.literal (Real.pi / 4))).onRegister (Param.value evaluate)
        tolerance n := by
  have hangle : (partOfPi 4 : ℝ) = Real.pi / 4 := by
    unfold partOfPi
    rw [Exact.pi_eq, Exact.whole_eq, Nat.cast_ofNat]
  have hmatrix : (Operation.tGate q).matrix? (Param.value evaluate) tolerance =
      some (.ok (diagonalOf [1, .cis (Real.pi / 4)])) := by
    rw [← hangle, ← table_eq_diagonalOf]
    rfl
  unfold Operation.onRegister
  rw [hmatrix]
  rfl

theorem backEighth_eq (q : ℕ) :
    backEighth q = .phaseShift q (Param.literal (Real.pi / 4)).neg := by
  unfold backEighth
  rw [Exact.pi_eq, Exact.whole_eq, Nat.cast_ofNat, neg_div]
  rfl

/-- The part of the ladder for half a turn on the target. -/
theorem unitary_signHead (hd : [a, b, t].Nodup) (hq : ∀ q ∈ [a, b, t], q < n) :
    Circuit.unitary (Param.value evaluate) tolerance
        (ladderHead Operation.tGate backEighth a b t) n =
      .ok (Mat.diagonal (2 ^ n) fun x => .cis (Real.pi / 4 * headCount n a b t x)) := by
  have hvalue : Param.value evaluate (.literal (Real.pi / 4)) = .ok (Real.pi / 4) := rfl
  rw [← unitary_ladderHead tolerance hvalue rfl hd hq]
  refine Circuit.unitary_congr _ _ ?_
  simp only [ladderHead, List.map_cons, List.map_nil, onRegister_tGate, backEighth_eq]

/-- The part of the ladder for half a turn on the controls. -/
theorem unitary_signTail (hd : [a, b, t].Nodup) (hq : ∀ q ∈ [a, b, t], q < n) :
    Circuit.unitary (Param.value evaluate) tolerance (ladderTail Operation.tGate backEighth a b) n =
      .ok (Mat.diagonal (2 ^ n) fun x => .cis (Real.pi / 4 * tailCount n a b x)) := by
  have hvalue : Param.value evaluate (.literal (Real.pi / 4)) = .ok (Real.pi / 4) := rfl
  rw [← unitary_ladderTail tolerance hvalue rfl hd hq]
  refine Circuit.unitary_congr _ _ ?_
  simp only [ladderTail, List.map_cons, List.map_nil, onRegister_tGate, backEighth_eq]

end

end

/-! ## The whole ladder -/

/-- The phase `y` on the states in which all listed bits are 1. -/
noncomputable def onesPhase (n : ℕ) (qs : List ℕ) (y : ℝ) : CMat ℝ :=
  Mat.diagonal (2 ^ n) fun x => if ∀ q ∈ qs, bitAt n q x = 1 then .cis y else 1

/-- The phases of both parts are the whole angle on the state of ones. -/
theorem diagonal_tail_mul_head (n a b t : ℕ) (y : ℝ) :
    (Mat.diagonal (2 ^ n) fun x => .cis (y / 4 * tailCount n a b x)).mul
        (Mat.diagonal (2 ^ n) fun x => .cis (y / 4 * headCount n a b t x)) =
      onesPhase n [a, b, t] y := by
  have hcount : ∀ x, y / 4 * (tailCount n a b x : ℝ) + y / 4 * (headCount n a b t x : ℝ) =
      if ∀ q ∈ [a, b, t], bitAt n q x = 1 then y else 0 := by
    intro x
    have hsum : (headCount n a b t x : ℝ) + tailCount n a b x =
        if ∀ q ∈ [a, b, t], bitAt n q x = 1 then 4 else 0 := by
      rw [← Int.cast_add, headCount_add_tailCount]
      split <;> simp
    rw [← mul_add, add_comm, hsum]
    split
    · ring
    · ring
  rw [Mat.diagonal_mul_diagonal]
  unfold onesPhase
  congr 1
  funext x
  rw [← Cplx.cis_add, hcount]
  split
  · rfl
  · exact Cplx.cis_zero

section

variable {n a b t : ℕ} (evaluate : String → Except (Fault ℝ) ℝ) (tolerance : ℝ)

/-- The ladder for half a turn gives it to the state of ones. -/
theorem unitary_signLadder (hd : [a, b, t].Nodup) (hq : ∀ q ∈ [a, b, t], q < n) :
    Circuit.unitary (Param.value evaluate) tolerance (signLadder a b t) n =
      .ok (onesPhase n [a, b, t] Real.pi) := by
  rw [← diagonal_tail_mul_head]
  exact Circuit.unitary_append _ _ (unitary_signHead evaluate tolerance hd hq)
    (unitary_signTail evaluate tolerance hd hq)

/-- The ladder for an angle gives it to the state of ones. -/
theorem unitary_phaseLadder (hd : [a, b, t].Nodup) (hq : ∀ q ∈ [a, b, t], q < n) (y : ℝ) :
    ∃ c, phaseLadder a b t (.literal y) = .ok c ∧
      c.unitary (Param.value evaluate) tolerance n = .ok (onesPhase n [a, b, t] y) := by
  have hquarter : (Param.literal y).div (.literal (Scalar.whole 4)) = .ok (.literal (y / 4)) := by
    have h := div_two_pow y 2
    norm_num at h
    rw [Exact.whole_eq, Nat.cast_ofNat]
    exact h
  have hvalue : Param.value evaluate (.literal (y / 4)) = .ok (y / 4) := rfl
  have hhead := unitary_ladderHead tolerance hvalue rfl hd hq
  have htail := unitary_ladderTail tolerance hvalue rfl hd hq
  refine ⟨_, ?_, (Circuit.unitary_append _ _ hhead htail).trans ?_⟩
  · unfold phaseLadder
    rw [hquarter]
    rfl
  · rw [diagonal_tail_mul_head]

end

end QuantumGates
