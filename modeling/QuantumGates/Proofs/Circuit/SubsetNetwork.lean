-- The network with all of its loops. It has a phase for every set of its qubits that is not empty,
-- and a controlled flip fewer than phases; its circuit exists whenever the power of two that the
-- angle is divided by is in range.
import QuantumGates.Proofs.Circuit.FourierGates
import QuantumGates.Proofs.Circuit.SubsetPhases

namespace QuantumGates

open Finset NetworkMove

/-! ## The size of the network -/

namespace NetworkMove

def isPhase : NetworkMove → Bool
  | flip _ _ => false
  | phase _ _ => true

def isFlip : NetworkMove → Bool
  | flip _ _ => true
  | phase _ _ => false

variable {R : Type} [Scalar R] (angle : Param R)

/-- The phases among the gates are those among the moves. -/
theorem countP_phaseShift (moves : List NetworkMove) :
    (moves.map (gate angle)).countP (fun g => g.kind = .single .phaseShiftState1) =
      moves.countP isPhase := by
  rw [List.countP_map]
  refine List.countP_congr fun move _ => ?_
  cases move <;> simp [gate, isPhase, Operation.cnot, Operation.phaseShift]

/-- The controlled flips among the gates are those among the moves. -/
theorem countP_cnot (moves : List NetworkMove) :
    (moves.map (gate angle)).countP (fun g => g.kind = .two .cnot) =
      moves.countP isFlip := by
  rw [List.countP_map]
  refine List.countP_congr fun move _ => ?_
  cases move <;> simp [gate, isFlip, Operation.cnot, Operation.phaseShift]

theorem length_eq_countP (moves : List NetworkMove) :
    moves.length = moves.countP isPhase + moves.countP isFlip := by
  induction moves with
  | nil => rfl
  | cons move moves ih =>
    rw [List.length_cons, List.countP_cons, List.countP_cons, ih]
    cases move <;> simp [isPhase, isFlip] <;> omega

end NetworkMove

/-- The loop has a phase for each step, and as many flips unless it has no lower places. -/
theorem countP_placeLoop (h : ℕ) :
    (placeLoop h).countP isPhase = 2 ^ h ∧
      (placeLoop h).countP isFlip = if h = 0 then 0 else 2 ^ h := by
  have hpos := Nat.two_pow_pos h
  have hturns : ∀ p : NetworkMove → Bool, (∀ k, (turn h k).countP p = 1) →
      ((List.range (2 ^ h - 1)).flatMap (turn h)).countP p = 2 ^ h - 1 := by
    intro p hp
    simp [List.countP_flatMap, Function.comp_def, hp]
  rw [placeLoop_eq_turns, List.cons_append, List.countP_cons, List.countP_cons, List.countP_append,
    List.countP_append, hturns isPhase fun _ => rfl, hturns isFlip fun _ => rfl]
  cases h with
  | zero => exact ⟨rfl, rfl⟩
  | succ h =>
    rw [if_neg (Nat.succ_ne_zero h), if_neg (Nat.succ_ne_zero h)]
    show 2 ^ (h + 1) - 1 + 0 + 1 = _ ∧ 2 ^ (h + 1) - 1 + 1 + 0 = _
    omega

theorem countP_placeNetwork (n : ℕ) :
    (placeNetwork n).countP isPhase = 2 ^ n - 1 ∧
      (placeNetwork n).countP isFlip = 2 ^ n - 2 := by
  induction n with
  | zero => exact ⟨rfl, rfl⟩
  | succ n ih =>
    have hpos := Nat.two_pow_pos n
    obtain ⟨hphases, hflips⟩ := countP_placeLoop n
    rw [placeNetwork_succ, List.countP_append, List.countP_append, ih.1, ih.2, hphases, hflips,
      pow_succ]
    refine ⟨by omega, ?_⟩
    split
    · subst n
      rfl
    · have := Nat.one_lt_two_pow (n := n) (by assumption)
      omega

/-! ## The moves on a list of qubits -/

theorem networkMoves_eq_codeLoop (qubits : List ℕ) :
    networkMoves qubits = (List.range qubits.length).reverse.flatMap fun h =>
      codeLoop (qubits.take h) (qubits.getD h 0) 0 (List.range (2 ^ h)) := by
  unfold networkMoves
  refine List.flatMap_congr fun h hh => ?_
  have hlt : h < qubits.length := by simpa using hh
  rw [blockMoves_eq_codeLoop, List.length_take_of_le hlt.le, List.getD_eq_getElem?_getD]

/-- The network on the qubits of a list is the network on their places. -/
theorem networkMoves_eq_map (qubits : List ℕ) :
    networkMoves qubits = (placeNetwork qubits.length).map (rename (qubits.getD · 0)) := by
  unfold placeNetwork
  rw [networkMoves_eq_codeLoop, List.map_flatMap]
  exact List.flatMap_congr fun h hh => codeLoop_take (by simpa using hh)

/-- As many phases as sets that are not empty, and a flip fewer. -/
theorem countP_networkMoves (qubits : List ℕ) :
    (networkMoves qubits).countP isPhase = 2 ^ qubits.length - 1 ∧
      (networkMoves qubits).countP isFlip = 2 ^ qubits.length - 2 := by
  have hphase : isPhase ∘ rename (qubits.getD · 0) = isPhase := by
    funext move
    cases move <;> rfl
  have hflip : isFlip ∘ rename (qubits.getD · 0) = isFlip := by
    funext move
    cases move <;> rfl
  rw [networkMoves_eq_map, List.countP_map, List.countP_map, hphase, hflip]
  exact countP_placeNetwork qubits.length

theorem valid_placeNetwork (n : ℕ) : ∀ move ∈ placeNetwork n, move.Valid n := by
  intro move hmem
  unfold placeNetwork at hmem
  obtain ⟨h, hh, hmove⟩ := List.mem_flatMap.mp hmem
  have hlt : h < n := by simpa using hh
  rw [placeLoop_eq] at hmove
  exact valid_blockMoves hlt (fun q hq => (List.mem_range.mp hq).trans hlt)
    List.not_mem_range_self move hmove

/-- The count of the network is the sum of the signed parities of the sets of its phases. -/
theorem run_networkMoves_eq_sum {qubits : List ℕ} (hd : qubits.Nodup) {n : ℕ}
    (hq : ∀ q ∈ qubits, q < n) (x : ℕ) :
    (NetworkMove.run n (networkMoves qubits) (x, 0)).2 =
      ((phases (placeNetwork qubits.length) ownBits).map
        (signedParity (bitAtPlace n qubits x))).sum := by
  rw [networkMoves_eq_map,
    ((holds_ownBits n qubits x).run hd hq (valid_placeNetwork qubits.length) 0).2, zero_add]

/-! ## The share of the angle -/

section

variable {R : Type} [Scalar R]

theorem Param.exists_div {y : R} (hy : (Param.literal y).isZero = false) (theta : Param R) :
    ∃ angle, theta.div (.literal y) = .ok angle := by
  unfold Param.div
  rw [hy]
  cases theta <;> exact ⟨_, rfl⟩

/-- The network exists if the power of two is in range and not nought. -/
theorem exists_parityNetwork {qubits : List ℕ} (hne : qubits ≠ []) {y : R}
    (hpower : powerOfTwo? (qubits.length - 1) = .ok y) (hy : (Param.literal y).isZero = false)
    (theta : Param R) :
    ∃ angle, theta.div (.literal y) = .ok angle ∧
      parityNetwork qubits theta = .ok ((networkMoves qubits).map (gate angle)) := by
  obtain ⟨angle, hangle⟩ := Param.exists_div hy theta
  exact ⟨angle, hangle, parityNetwork_of_share hne hpower hangle⟩

end

/-! ## The loops -/

/-- The loop of place `h` visits the subsets of the lower places. -/
structure VisitsSubsets (h : ℕ) (loop : List NetworkMove) : Prop where
  /-- A turn leads from each step to the next, and a flip by the highest lower place is last. -/
  turns : loop = .phase h true :: (List.range (2 ^ h - 1)).flatMap (turn h) ++
    if h = 0 then [] else [.flip (h - 1) h]
  /-- Each turn flips by one lower place, which is all that the subset changes by. -/
  one_place : ∀ k, k + 1 < 2 ^ h → changedPlace k < h ∧
    codeSet (grayCode (k + 1)) = symmDiff (codeSet (grayCode k)) {changedPlace k}
  /-- Each phase acts on the subset of its step. -/
  steps : phases loop ownBits = (List.range (2 ^ h)).map (stepPhase h)
  each_once : EachOnce (phases loop ownBits) fun S => ∃ T ⊆ range h, S = insert h T
  /-- The last flip empties the last subset. -/
  last : h ≠ 0 → codeSet (grayCode (2 ^ h - 1)) = {h - 1}
  restored : holdAll loop ownBits = ownBits

theorem visitsSubsets_placeLoop (h : ℕ) : VisitsSubsets h (placeLoop h) where
  turns := placeLoop_eq_turns h
  one_place k hk := ⟨(changedPlace_spec hk).1, codeSet_grayCode_succ hk⟩
  steps := (hold_placeLoop h).2
  each_once := eachOnce_placeLoop h
  last h0 := by
    obtain ⟨k, rfl⟩ := Nat.exists_eq_succ_of_ne_zero h0
    rw [grayCode_last, codeSet_two_pow]
    rfl
  restored := (hold_placeLoop h).1

/-- The network of a list of qubits, said by their places. Its circuit is made of loops that keep
the code of the step before, the highest accumulator first, and exists for every angle in exact
arithmetic and, for up to 1024 qubits, on doubles. Each loop visits the subsets of the places below
its accumulator. So every set of places that is not empty has one phase, forward if its size is odd,
the phases and controlled flips are as many as that makes, and the angle is counted by the parities
of these sets. -/
theorem network_of_subsets {qubits : List ℕ} (hne : qubits ≠ []) :
    let n := qubits.length
    let qubit := fun place => qubits.getD place 0
    let loop := fun h => codeLoop (qubits.take h) (qubit h) 0 (List.range (2 ^ h))
    let moves := (List.range n).reverse.flatMap loop
    (∀ (R : Type) [Scalar R] (theta : Param R), parityNetwork qubits theta = do
      let angle ← theta.div (.literal (← powerOfTwo? (n - 1)))
      return moves.map (gate angle)) ∧
    (∀ theta : Param ℝ, ∃ angle, theta.div (.literal (2 ^ (n - 1))) = .ok angle ∧
      parityNetwork qubits theta = .ok (moves.map (gate angle))) ∧
    (n ≤ 1024 → ∀ theta : Param Float, ∃ angle,
      theta.div (.literal (Float.ofNat (2 ^ (n - 1)))) = .ok angle ∧
        parityNetwork qubits theta = .ok (moves.map (gate angle))) ∧
    (∀ h < n, loop h = (placeLoop h).map (rename qubit) ∧ VisitsSubsets h (placeLoop h)) ∧
    moves = (placeNetwork n).map (rename qubit) ∧
    EachOnce (phases (placeNetwork n) ownBits) (fun S => S.Nonempty ∧ S ⊆ range n) ∧
    (∀ (R : Type) [Scalar R] (angle : Param R),
      (moves.map (gate angle)).length = (2 ^ n - 1) + (2 ^ n - 2) ∧
      (moves.map (gate angle)).countP (fun g => g.kind = .single .phaseShiftState1) = 2 ^ n - 1 ∧
      (moves.map (gate angle)).countP (fun g => g.kind = .two .cnot) = 2 ^ n - 2) ∧
    (qubits.Nodup → ∀ m, (∀ q ∈ qubits, q < m) → ∀ x,
      (NetworkMove.run m moves (x, 0)).2 =
        ((phases (placeNetwork n) ownBits).map (signedParity (bitAtPlace m qubits x))).sum) := by
  intro n qubit loop moves
  have hmoves : networkMoves qubits = moves := networkMoves_eq_codeLoop qubits
  rw [← hmoves]
  refine ⟨fun R _ theta => parityNetwork_eq hne theta, fun theta => ?_, fun hn theta => ?_,
    fun h hh => ⟨codeLoop_take hh, visitsSubsets_placeLoop h⟩, networkMoves_eq_map qubits,
    eachOnce_placeNetwork n, fun R _ angle => ?_, fun hd m hq x => run_networkMoves_eq_sum hd hq x⟩
  · exact exists_parityNetwork hne (powerOfTwo?_eq (n - 1))
      (decide_eq_false (pow_ne_zero (n - 1) two_ne_zero)) theta
  · exact exists_parityNetwork hne (powerOfTwo?_of_le (by omega))
      (Double.beq_zero_ofNat_two_pow (by omega)) theta
  · obtain ⟨hphases, hflips⟩ := countP_networkMoves qubits
    rw [countP_phaseShift, countP_cnot, List.length_map, length_eq_countP, hphases, hflips]
    exact ⟨rfl, rfl, rfl⟩

/-- Three qubits out of order and an angle that is given later: seven phases, one for each set of
places, with six flips between them. -/
theorem subsets_of_three :
    [2, 0, 1] ≠ ([] : List ℕ) ∧
    (∃ angle : Param Float, parityNetwork [2, 0, 1] (.expression "theta") = .ok
      [.phaseShift 1 angle, .cnot 2 1, .phaseShift 1 angle.neg, .cnot 0 1, .phaseShift 1 angle,
        .cnot 2 1, .phaseShift 1 angle.neg, .cnot 0 1, .phaseShift 0 angle, .cnot 2 0,
        .phaseShift 0 angle.neg, .cnot 2 0, .phaseShift 2 angle]) ∧
    phases (placeNetwork 3) ownBits =
      [({2}, true), ({0, 2}, false), ({0, 1, 2}, true), ({1, 2}, false), ({1}, true),
        ({0, 1}, false), ({0}, true)] ∧
    EachOnce (phases (placeNetwork 3) ownBits) fun S => S.Nonempty ∧ S ⊆ range 3 := by
  have hne : [2, 0, 1] ≠ ([] : List ℕ) := by decide
  obtain ⟨-, -, hdoubles, -, -, honce, -⟩ := network_of_subsets hne
  obtain ⟨angle, -, hnetwork⟩ := hdoubles (by decide) (.expression "theta")
  exact ⟨hne, ⟨angle, hnetwork⟩, by decide, honce⟩

end QuantumGates
