-- The gates of the Fourier transform by their places in the list of qubits. On doubles each phase
-- divides half a turn by a power of two, which is exact as long as the power is a double. This is so
-- for all lists of up to 1024 qubits, and a longer one has no circuit: its first phase between qubits
-- 1024 places apart is out of range.
import QuantumGates.Proofs.Number.PowersOfTwo
import QuantumGates.Circuit.Fourier

namespace QuantumGates

/-! ## The gates by their places -/

/-- The angle of the phase between qubits `k` places apart, taken back for the inverse. -/
def phaseAngle (inverse : Bool) (k : ℕ) : Float :=
  let angle := Double.pi / Float.ofNat (2 ^ k)
  if inverse then -angle else angle

/-- The phase from the qubit at place `j` to the one at place `i`. -/
def phaseBetween (qs : List ℕ) (inverse : Bool) (i j : ℕ) : Operation (Param Float) :=
  .controlledPhase (qs.getD j 0) (qs.getD i 0) (.literal (phaseAngle inverse (j - i)))

/-- The Hadamard gate on the qubit at place `i` and the phases from all later ones. -/
def fourierStep (qs : List ℕ) (inverse : Bool) (i : ℕ) : Circuit Float :=
  .hadamard (qs.getD i 0) ::
    (List.range' (i + 1) (qs.length - (i + 1))).map (phaseBetween qs inverse i)

/-- The steps of all places in ascending order. -/
def fourierSteps (qs : List ℕ) (inverse : Bool) : Circuit Float :=
  (List.range qs.length).flatMap (fourierStep qs inverse)

/-- Exchanges of the qubits at places as far from the beginning as from the end. -/
def mirrorSwaps (qs : List ℕ) : Circuit Float :=
  (List.range (qs.length / 2)).map fun i =>
    .swap (qs.getD i 0) (qs.getD (qs.length - 1 - i) 0)

/-- The gates of the Fourier transform, with the exchanges last, and first for the inverse. -/
def fourierGates (qs : List ℕ) (swaps inverse : Bool) : Circuit Float :=
  let exchanges := if swaps then mirrorSwaps qs else []
  if inverse then exchanges ++ fourierSteps qs true else fourierSteps qs false ++ exchanges

/-! ## Angles -/

theorem powerOfTwo?_of_le {k : ℕ} (h : k ≤ 1023) :
    (powerOfTwo? k : Except (Fault Float) Float) = .ok (Float.ofNat (2 ^ k)) :=
  if_pos ((Double.isFinite_ofNat_two_pow k).trans (decide_eq_true h))

theorem powerOfTwo?_of_lt {k : ℕ} (h : 1023 < k) :
    (powerOfTwo? k : Except (Fault Float) Float) = .error .tooLarge := by
  refine if_neg ?_
  show ¬ (Float.ofNat (2 ^ k)).isFinite = true
  rw [Double.isFinite_ofNat_two_pow, decide_eq_true_iff]
  omega

theorem isFinite_pi_div {k : ℕ} (h : k ≤ 1023) :
    (Double.pi / Float.ofNat (2 ^ k)).isFinite = true := by
  have hfinite : (Double.pi / Float.ofNat (2 ^ k)).isFinite =
      (Double.pi / Float.ofNat (2 ^ k)).toModel.unpack.isFinite := rfl
  obtain ⟨_, hunpack⟩ := Double.unpack_pi
  rw [hfinite, Double.unpack_div_two_pow hunpack (by norm_num) (by norm_num) (by omega) (by omega) h]
  rfl

/-- Angles are the parts of half a turn that they stand for, without rounding. -/
theorem real_phaseAngle (inverse : Bool) {k : ℕ} (h : k ≤ 1023) :
    Double.real (phaseAngle inverse k) =
      (if inverse then -1 else 1) * (Double.real Double.pi / 2 ^ k) := by
  unfold phaseAngle
  cases inverse with
  | false => simp [Double.real_pi_div_two_pow h]
  | true => simp [Double.real_neg (isFinite_pi_div h), Double.real_pi_div_two_pow h]

/-- The sign that the angles are multiplied with. -/
def phaseSign {R : Type} [Scalar R] (inverse : Bool) : R := if inverse then -1 else 1

theorem phaseSign_mul (inverse : Bool) {k : ℕ} (h : k ≤ 1023) :
    (phaseSign inverse : Float) * (Double.pi / Float.ofNat (2 ^ k)) = phaseAngle inverse k := by
  cases inverse with
  | false => exact Double.one_mul (isFinite_pi_div h)
  | true => exact Double.minus_one_mul (isFinite_pi_div h)

/-! ## The ladder -/

/-- The phases of a qubit, the next later one being `k` places away. -/
theorem phasesTo_of_le (inverse : Bool) (q : ℕ) (rest : List ℕ) {k : ℕ}
    (h : k + rest.length ≤ 1024) :
    phasesTo (phaseSign inverse) q k rest = .ok ((List.range rest.length).map fun d =>
      .controlledPhase (rest.getD d 0) q (.literal (phaseAngle inverse (k + d)))) := by
  induction rest generalizing k with
  | nil => rfl
  | cons p rest ih =>
    rw [List.length_cons] at h
    have hangle := phaseSign_mul inverse (k := k) (by omega)
    unfold phasesTo
    rw [powerOfTwo?_of_le (by omega), ih (by omega), List.length_cons, List.range_succ_eq_map,
      List.map_cons, List.map_map]
    refine congrArg Except.ok (congrArg₂ List.cons ?_ (List.map_congr_left fun d _ => ?_))
    · exact congrArg (fun angle => Operation.controlledPhase p q (Param.literal angle)) hangle
    · rw [Nat.add_assoc, Nat.add_comm 1 d]
      rfl

theorem phasesTo_of_lt (sign : Float) (q : ℕ) (rest : List ℕ) {k : ℕ} (hk : k ≤ 1024)
    (h : 1024 < k + rest.length) : phasesTo sign q k rest = .error .tooLarge := by
  induction rest generalizing k with
  | nil => exact absurd h (by simpa using hk)
  | cons p rest ih =>
    rw [List.length_cons] at h
    unfold phasesTo
    by_cases hlast : k = 1024
    · rw [powerOfTwo?_of_lt (by omega)]
      rfl
    · rw [powerOfTwo?_of_le (by omega), ih (by omega) (by omega)]
      rfl

/-- The step of the first qubit. -/
theorem fourierStep_zero (inverse : Bool) (q : ℕ) (rest : List ℕ) :
    fourierStep (q :: rest) inverse 0 = .hadamard q :: (List.range rest.length).map fun d =>
      .controlledPhase (rest.getD d 0) q (.literal (phaseAngle inverse (1 + d))) := by
  unfold fourierStep
  rw [List.range'_eq_map_range, List.map_map, List.length_cons, Nat.zero_add, Nat.add_sub_cancel]
  refine congrArg₂ List.cons rfl (List.map_congr_left fun d _ => ?_)
  show phaseBetween (q :: rest) inverse 0 (1 + d) = _
  unfold phaseBetween
  rw [Nat.sub_zero, Nat.add_comm, List.getD_cons_succ, List.getD_cons_zero]

/-- The steps of later qubits do not depend on the first one. -/
theorem fourierStep_succ (inverse : Bool) (q : ℕ) (rest : List ℕ) (i : ℕ) :
    fourierStep (q :: rest) inverse (i + 1) = fourierStep rest inverse i := by
  unfold fourierStep
  rw [List.getD_cons_succ, List.length_cons, Nat.add_sub_add_right, List.range'_eq_map_range,
    List.range'_eq_map_range, List.map_map, List.map_map]
  refine congrArg₂ List.cons rfl (List.map_congr_left fun d _ => ?_)
  show phaseBetween (q :: rest) inverse (i + 1) (i + 1 + 1 + d) =
    phaseBetween rest inverse i (i + 1 + d)
  unfold phaseBetween
  rw [Nat.add_right_comm (i + 1) 1 d, List.getD_cons_succ, List.getD_cons_succ,
    Nat.add_sub_add_right]

theorem fourierSteps_cons (inverse : Bool) (q : ℕ) (rest : List ℕ) :
    fourierSteps (q :: rest) inverse =
      fourierStep (q :: rest) inverse 0 ++ fourierSteps rest inverse := by
  unfold fourierSteps
  rw [List.length_cons, List.range_succ_eq_map, List.flatMap_cons, List.flatMap_map]
  simp only [Nat.succ_eq_add_one, fourierStep_succ]

theorem fourierLadder_of_le (inverse : Bool) {qs : List ℕ} (h : qs.length ≤ 1024) :
    fourierLadder (phaseSign inverse) qs = .ok (fourierSteps qs inverse) := by
  induction qs with
  | nil => rfl
  | cons q rest ih =>
    rw [List.length_cons] at h
    unfold fourierLadder
    rw [phasesTo_of_le inverse q rest (by omega), ih (by omega), fourierSteps_cons,
      fourierStep_zero]
    rfl

theorem fourierLadder_of_lt (sign : Float) {qs : List ℕ} (h : 1024 < qs.length) :
    fourierLadder sign qs = .error .tooLarge := by
  cases qs with
  | nil => exact absurd h (by simp)
  | cons q rest =>
    rw [List.length_cons] at h
    unfold fourierLadder
    rw [phasesTo_of_lt sign q rest (by omega) (by omega)]
    rfl

/-! ## The exchanges -/

/-- The exchanges by the places of their qubits. -/
theorem reversal_eq_map {R : Type} (qs : List ℕ) :
    (reversal qs : Circuit R) = (List.range (qs.length / 2)).map fun i =>
      .swap (qs.getD i 0) (qs.getD (qs.length - 1 - i) 0) := by
  have hhalf : qs.length / 2 ≤ qs.length := Nat.div_le_self ..
  unfold reversal
  refine List.ext_getElem (by simp [hhalf]) fun i hi hi' => ?_
  have hlt : i < qs.length := by
    simp at hi'
    omega
  have hmirror : qs.length - 1 - i < qs.length := by omega
  simp [List.getElem_reverse, hlt, hmirror]

theorem reversal_eq_mirrorSwaps (qs : List ℕ) : reversal qs = mirrorSwaps qs := reversal_eq_map qs

/-! ## The circuit -/

theorem fourierCircuit_eq (qs : List ℕ) (swaps inverse : Bool) :
    (fourierCircuit qs swaps inverse : Except (Fault Float) (Circuit Float)) =
      (fourierLadder (phaseSign inverse) qs).map fun steps =>
        let exchanges := if swaps then mirrorSwaps qs else []
        if inverse then exchanges ++ steps else steps ++ exchanges := by
  rw [← reversal_eq_mirrorSwaps]
  unfold fourierCircuit
  show (fourierLadder (phaseSign inverse) qs >>= _) = _
  cases fourierLadder (phaseSign inverse : Float) qs <;> rfl

theorem fourierCircuit_of_le {qs : List ℕ} (h : qs.length ≤ 1024) (swaps inverse : Bool) :
    fourierCircuit qs swaps inverse = .ok (fourierGates qs swaps inverse) := by
  rw [fourierCircuit_eq, fourierLadder_of_le inverse h]
  unfold fourierGates
  cases inverse <;> simp only [Except.map, Bool.false_eq_true, if_false, if_true]

/-- A list of more qubits than doubles have powers of two. -/
theorem fourierCircuit_of_lt {qs : List ℕ} (h : 1024 < qs.length) (swaps inverse : Bool) :
    (fourierCircuit qs swaps inverse : Except (Fault Float) (Circuit Float)) =
      .error .tooLarge := by
  rw [fourierCircuit_eq, fourierLadder_of_lt _ h]
  rfl

/-! ## Counts -/

theorem length_fourierSteps (qs : List ℕ) (inverse : Bool) :
    (fourierSteps qs inverse).length = qs.length + qs.length * (qs.length - 1) / 2 := by
  induction qs with
  | nil => rfl
  | cons q rest ih =>
    rw [fourierSteps_cons, fourierStep_zero, List.length_append, ih, List.length_cons,
      List.length_map, List.length_range, List.length_cons, Nat.triangle_succ]
    omega

theorem length_mirrorSwaps (qs : List ℕ) : (mirrorSwaps qs).length = qs.length / 2 := by
  unfold mirrorSwaps
  rw [List.length_map, List.length_range]

theorem length_fourierGates (qs : List ℕ) (swaps inverse : Bool) :
    (fourierGates qs swaps inverse).length =
      qs.length + qs.length * (qs.length - 1) / 2 + if swaps then qs.length / 2 else 0 := by
  unfold fourierGates
  cases inverse <;> cases swaps <;>
    simp [length_fourierSteps, length_mirrorSwaps, Nat.add_comm]

/-- The steps of the inverse are those of the transform with opposite angles. -/
theorem fourierSteps_inverse (qs : List ℕ) :
    fourierSteps qs true = (fourierSteps qs false).map fun op => op.onTheta Param.neg := by
  unfold fourierSteps fourierStep
  rw [List.map_flatMap]
  refine List.flatMap_congr fun i _ => ?_
  rw [List.map_cons, List.map_map]
  rfl

/-- The circuit of the Fourier transform on doubles. Up to 1024 qubits it has a Hadamard gate for
each place, followed by the phases from all later places, and the exchanges of mirrored places
where they are asked for; beyond that there is none. -/
theorem fourier_circuit_of_doubles (qs : List ℕ) (swaps inverse : Bool) :
    (fourierCircuit qs swaps inverse : Except (Fault Float) (Circuit Float)) =
      (if qs.length ≤ 1024 then .ok (fourierGates qs swaps inverse) else .error .tooLarge) ∧
    (fourierGates qs swaps inverse).length =
      qs.length + qs.length * (qs.length - 1) / 2 + (if swaps then qs.length / 2 else 0) ∧
    fourierSteps qs true = (fourierSteps qs false).map (fun op => op.onTheta Param.neg) ∧
    ∀ k ≤ 1023, Double.real (phaseAngle inverse k) =
      (if inverse then -1 else 1) * (Double.real Double.pi / 2 ^ k) := by
  refine ⟨?_, length_fourierGates qs swaps inverse, fourierSteps_inverse qs,
    fun k hk => real_phaseAngle inverse hk⟩
  split
  · rename_i h
    exact fourierCircuit_of_le h swaps inverse
  · rename_i h
    exact fourierCircuit_of_lt (Nat.lt_of_not_le h) swaps inverse

/-- A list of one qubit more than there may be. -/
theorem fourier_circuit_out_of_range :
    (fourierCircuit (List.range 1025) true false : Except (Fault Float) (Circuit Float)) =
      .error .tooLarge :=
  fourierCircuit_of_lt (by simp) true false

end QuantumGates
