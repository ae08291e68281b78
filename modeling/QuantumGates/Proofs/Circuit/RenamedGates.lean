-- Renaming a composite gate and renaming its circuit. The circuit of a renamed gate is the renamed
-- circuit. A circuit mentions the qubits of its gate and no other ones, so one of the two can be
-- renamed just when the other one can.
import QuantumGates.Proofs.Circuit.RenamedCircuits

namespace QuantumGates

/-! ## Circuits of renamed gates -/

section

variable {R : Type} [Scalar R] (g : ℕ → ℕ)

theorem ThreeKind.circuit_renamed (k : ThreeKind) (args : Args (Param R) k.fields) :
    k.circuit (args.renamed g k.fields) =
      (k.circuit args).map (List.map (Operation.renamed g)) := by
  cases k with
  | controlledControlledPauliZ =>
    obtain ⟨a, b, t, _⟩ := args
    exact (congrArg Except.ok (renamed_signLadder g a b t)).symm
  | controlledControlledPhaseShift =>
    obtain ⟨a, b, t, theta, _⟩ := args
    exact (renamed_phaseLadder g a b t theta).symm
  | toffoli =>
    obtain ⟨a, b, t, _⟩ := args
    exact (congrArg Except.ok (renamed_toffoliCircuit g a b t)).symm
  | controlledSwap =>
    obtain ⟨a, b, t, _⟩ := args
    show Except.ok (Operation.cnot (g t) (g b) :: toffoliCircuit (g a) (g b) (g t) ++
      [.cnot (g t) (g b)]) = _
    rw [← renamed_toffoliCircuit]
    simp [circuit, Except.map, renamed_cnot]
  | phaseShiftedControlledControlledZ =>
    obtain ⟨a, b, t, phi, _⟩ := args
    show Except.ok (signLadder (g a) (g b) (g t) ++ phaseOnEach ([a, b, t].map g) phi) = _
    rw [← renamed_signLadder, ← renamed_phaseOnEach, ← List.map_append]
    rfl
  | phaseShiftedControlledControlledPhase =>
    obtain ⟨a, b, t, theta, phi, _⟩ := args
    show (do return (← phaseLadder (g a) (g b) (g t) theta) ++
        phaseOnEach ([a, b, t].map g) phi) =
      (do return (← phaseLadder a b t theta) ++ phaseOnEach [a, b, t] phi).map _
    rw [← renamed_phaseLadder, ← renamed_phaseOnEach]
    cases phaseLadder a b t theta with
    | error f => rfl
    | ok c => exact congrArg Except.ok List.map_append.symm

theorem FourKind.circuit_renamed (k : FourKind) (args : Args (Param R) k.fields) :
    k.circuit (args.renamed g k.fields) =
      (k.circuit args).map (List.map (Operation.renamed g)) := by
  cases k with
  | tripleControlledPauliX =>
    obtain ⟨a, b, c, t, _⟩ := args
    exact (renamed_networkNot g (List.cons_ne_nil a [b, c, t])).symm
  | tripleControlledPauliZ =>
    obtain ⟨a, b, c, t, _⟩ := args
    exact (renamed_parityNetwork g [a, b, c, t] (.literal Scalar.pi)).symm
  | tripleControlledPhaseShift =>
    obtain ⟨a, b, c, t, theta, _⟩ := args
    exact (renamed_parityNetwork g [a, b, c, t] theta).symm

theorem RegisterKind.circuit_renamed (k : RegisterKind) (args : Args (Param R) k.fields) :
    k.circuit (args.renamed g k.fields) =
      (k.circuit args).map (List.map (Operation.renamed g)) := by
  cases k with
  | ms =>
    obtain ⟨qs, theta, _⟩ := args
    exact (renamed_flipRotation g qs theta).symm
  | zz =>
    obtain ⟨qs, theta, _⟩ := args
    exact (renamed_parityRotation g qs theta).symm
  | cnot =>
    obtain ⟨qs, _⟩ := args
    exact (renamed_controlledNot g qs).symm
  | qft =>
    obtain ⟨qs, swaps, inverse, _⟩ := args
    exact (renamed_fourierCircuit g qs swaps inverse).symm

/-- The circuit of a renamed gate is the renamed circuit. -/
theorem Operation.circuit?_renamed (op : Operation (Param R)) :
    (op.renamed g).circuit? =
      op.circuit?.map fun c => c.map (List.map (Operation.renamed g)) := by
  obtain ⟨k, args⟩ := op
  cases k with
  | single => rfl
  | two => rfl
  | three k => exact congrArg some (k.circuit_renamed g args)
  | four k => exact congrArg some (k.circuit_renamed g args)
  | register k => exact congrArg some (k.circuit_renamed g args)
  | call => rfl

end

/-! ## The qubits of a circuit -/

/-- Some operation of the circuit acts on the qubit. -/
def Circuit.Mentions {R : Type} (c : Circuit R) (q : ℕ) : Prop := ∃ op ∈ c, q ∈ op.qubits

namespace Circuit.Mentions

variable {R : Type} {c d : Circuit R} {op : Operation (Param R)} {q : ℕ}

theorem head (h : q ∈ op.qubits) : Circuit.Mentions (op :: c) q := ⟨op, List.mem_cons_self, h⟩

theorem tail (h : c.Mentions q) : Circuit.Mentions (op :: c) q := by
  obtain ⟨o, ho, hq⟩ := h
  exact ⟨o, List.mem_cons_of_mem _ ho, hq⟩

theorem left (h : c.Mentions q) : Circuit.Mentions (c ++ d) q := by
  obtain ⟨o, ho, hq⟩ := h
  exact ⟨o, List.mem_append_left _ ho, hq⟩

theorem right (h : d.Mentions q) : Circuit.Mentions (c ++ d) q := by
  obtain ⟨o, ho, hq⟩ := h
  exact ⟨o, List.mem_append_right _ ho, hq⟩

end Circuit.Mentions

theorem mentions_ladderHead {R : Type} {a b t q : ℕ} (plus minus : ℕ → Operation (Param R)) 
    (hq : q ∈ [a, b, t]) :     (ladderHead plus minus a b t).Mentions q := by
  simp only [List.mem_cons, List.not_mem_nil, or_false] at hq
  rcases hq with rfl | rfl | rfl
  · exact .tail (.tail (.head (List.mem_cons_self : q ∈ [q, t])))
  · exact .head (List.mem_cons_self : q ∈ [q, t])
  · exact .head (List.mem_cons_of_mem _ List.mem_cons_self : q ∈ [b, q])

variable {R : Type} [Scalar R]

section

variable {a b t q : ℕ} {qs : List ℕ}

theorem mentions_signLadder (hq : q ∈ [a, b, t]) : (signLadder a b t : Circuit R).Mentions q :=
  (mentions_ladderHead _ _ hq).left

theorem mentions_toffoliCircuit (hq : q ∈ [a, b, t]) :
    (toffoliCircuit a b t : Circuit R).Mentions q :=
  .left (.tail (mentions_ladderHead _ _ hq))

theorem mentions_phaseLadder {theta : Param R} {c : Circuit R}
    (hc : phaseLadder a b t theta = .ok c) (hq : q ∈ [a, b, t]) : c.Mentions q := by
  obtain ⟨quarter, -, hladder⟩ := bind_eq_ok hc
  cases hladder
  exact (mentions_ladderHead _ _ hq).left

/-- Every qubit is once the highest one of a subset, and the empty rest of it has its phase. -/
theorem phase_mem_networkMoves (hq : q ∈ qs) :
    NetworkMove.phase q (evenBits (grayCode 0)) ∈ networkMoves qs := by
  obtain ⟨i, hi, rfl⟩ := List.getElem_of_mem hq
  have hblock : NetworkMove.phase qs[i] (evenBits (grayCode 0)) ∈
      blockMoves (qs.take i) (qs[i]?.getD 0) := by
    rw [List.getElem?_eq_getElem hi, Option.getD_some]
    refine List.mem_append_left _ (List.mem_flatMap.mpr ⟨0, ?_, ?_⟩)
    · exact List.mem_range.mpr (Nat.two_pow_pos _)
    · exact List.mem_append_right _ (List.mem_singleton.mpr rfl)
  exact List.mem_flatMap.mpr ⟨i, by simpa using hi, hblock⟩

theorem mentions_parityNetwork {theta : Param R} {c : Circuit R}
    (hc : parityNetwork qs theta = .ok c) (hq : q ∈ qs) : c.Mentions q := by
  rw [parityNetwork_eq (List.ne_nil_of_mem hq)] at hc
  obtain ⟨power, -, hc⟩ := bind_eq_ok hc
  obtain ⟨angle, -, hc⟩ := bind_eq_ok hc
  cases hc
  exact ⟨_, List.mem_map_of_mem (phase_mem_networkMoves hq), (List.mem_singleton.mpr rfl : q ∈ [q])⟩

theorem mentions_networkNot {c : Circuit R} (hc : networkNot qs = .ok c) (hq : q ∈ qs) :
    c.Mentions q := by
  obtain ⟨network, hnetwork, hc⟩ := bind_eq_ok hc
  cases hc
  exact .left (.tail (mentions_parityNetwork hnetwork hq))

theorem mentions_controlledNot {c : Circuit R} (hc : controlledNot qs = .ok c) (hq : q ∈ qs) :
    c.Mentions q := by
  match qs, hc, hq with
  | [_], rfl, hq => exact .head hq
  | [_, _], rfl, hq => exact .head hq
  | [_, _, _], rfl, hq => exact mentions_toffoliCircuit hq
  | _ :: _ :: _ :: _ :: _, hc, hq => exact mentions_networkNot hc hq

/-- Every qubit but the last one is the control of a stair. -/
theorem mem_stairs_or_eq_getLast (hne : qs ≠ []) (hq : q ∈ qs) :
    (∃ p, (q, p) ∈ stairs qs) ∨ q = qs.getLast hne := by
  induction qs with
  | nil => exact absurd rfl hne
  | cons a rest ih =>
    cases rest with
    | nil => exact .inr (List.mem_singleton.mp hq)
    | cons b rest =>
      rcases List.mem_cons.mp hq with rfl | hq
      · exact .inl ⟨b, List.mem_cons_self⟩
      · rcases ih (List.cons_ne_nil b rest) hq with ⟨p, hp⟩ | hlast
        · exact .inl ⟨p, List.mem_cons_of_mem _ hp⟩
        · exact .inr hlast

theorem mentions_parityRotation {theta : Param R} {c : Circuit R}
    (hc : parityRotation qs theta = .ok c) (hq : q ∈ qs) : c.Mentions q := by
  have hne := List.ne_nil_of_mem hq
  rw [parityRotation_eq hne] at hc
  cases hc
  rcases mem_stairs_or_eq_getLast hne hq with ⟨p, hp⟩ | rfl
  · exact .left ⟨.cnot q p, List.mem_map_of_mem hp, (List.mem_cons_self : q ∈ [q, p])⟩
  · exact .right (.head (List.mem_singleton.mpr rfl))

theorem mentions_flipRotation {theta : Param R} {c : Circuit R}
    (hc : flipRotation qs theta = .ok c) (hq : q ∈ qs) : c.Mentions q := by
  rw [flipRotation_eq (List.ne_nil_of_mem hq)] at hc
  cases hc
  exact .right ⟨.hadamard q, List.mem_map_of_mem hq, (List.mem_singleton.mpr rfl : q ∈ [q])⟩

theorem mentions_fourierLadder {sign : R} {c : Circuit R}
    (hc : fourierLadder sign qs = .ok c) (hq : q ∈ qs) : c.Mentions q := by
  induction qs generalizing c with
  | nil => exact absurd hq List.not_mem_nil
  | cons p qs ih =>
    obtain ⟨phases, -, hc⟩ := bind_eq_ok hc
    obtain ⟨rest, hrest, hc⟩ := bind_eq_ok hc
    cases hc
    rcases List.mem_cons.mp hq with rfl | hq
    · exact .left (.head (List.mem_singleton.mpr rfl : q ∈ [q]))
    · exact .right (ih hrest hq)

theorem mentions_fourierCircuit {swaps inverse : Bool} {c : Circuit R}
    (hc : fourierCircuit qs swaps inverse = .ok c) (hq : q ∈ qs) : c.Mentions q := by
  obtain ⟨steps, hsteps, hc⟩ := bind_eq_ok hc
  have hmention := mentions_fourierLadder hsteps hq
  cases inverse with
  | true =>
    cases hc
    exact hmention.right
  | false =>
    cases hc
    exact hmention.left

end

/-- Every qubit of a gate is mentioned by its circuit. -/
theorem Operation.mentions_circuit {op : Operation (Param R)} {c : Circuit R}
    (hc : op.circuit? = some (.ok c)) {q : ℕ} (hq : q ∈ op.qubits) : c.Mentions q := by
  obtain ⟨k, args⟩ := op
  cases k with
  | single => cases hc
  | two => cases hc
  | three k =>
    replace hc := Option.some.inj hc
    cases k with
    | controlledControlledPauliZ =>
      cases hc
      exact mentions_signLadder hq
    | controlledControlledPhaseShift => exact mentions_phaseLadder hc hq
    | toffoli =>
      cases hc
      exact mentions_toffoliCircuit hq
    | controlledSwap =>
      cases hc
      exact .left (.tail (mentions_toffoliCircuit hq))
    | phaseShiftedControlledControlledZ =>
      cases hc
      exact .left (mentions_signLadder hq)
    | phaseShiftedControlledControlledPhase =>
      obtain ⟨ladder, hladder, hc⟩ := bind_eq_ok hc
      cases hc
      exact .left (mentions_phaseLadder hladder hq)
  | four k =>
    replace hc := Option.some.inj hc
    cases k with
    | tripleControlledPauliX => exact mentions_networkNot hc hq
    | tripleControlledPauliZ => exact mentions_parityNetwork hc hq
    | tripleControlledPhaseShift => exact mentions_parityNetwork hc hq
  | register k =>
    replace hc := Option.some.inj hc
    have hlisted : ∀ qs : List ℕ, q ∈ qs ++ [] → q ∈ qs := fun qs h => List.append_nil qs ▸ h
    cases k with
    | ms => exact mentions_flipRotation hc (hlisted _ hq)
    | zz => exact mentions_parityRotation hc (hlisted _ hq)
    | cnot => exact mentions_controlledNot hc (hlisted _ hq)
    | qft => exact mentions_fourierCircuit hc (hlisted _ hq)
  | call => cases hc

/-- A circuit has no other qubits than its gate: with those of the gate kept and all others moved,
the gate does not change, and so neither does its circuit. -/
theorem Operation.mem_qubits_of_circuit {op : Operation (Param R)} {c : Circuit R}
    (hc : op.circuit? = some (.ok c)) {o : Operation (Param R)} (ho : o ∈ c) {q : ℕ}
    (hq : q ∈ o.qubits) : q ∈ op.qubits := by
  let g : ℕ → ℕ := fun p => if p ∈ op.qubits then p else p + 1
  have hself : op.renamed g = op := renamed_eq_self fun p hp => if_pos hp
  have hcircuit := circuit?_renamed g op
  rw [hself, hc] at hcircuit
  have hmap : c.map id = c.map (Operation.renamed g) :=
    (List.map_id c).trans (Except.ok.inj (Option.some.inj hcircuit))
  have hkept : o = o.renamed g := List.map_inj_left.mp hmap o ho
  have hqubits : o.qubits.map id = o.qubits.map g := by
    rw [List.map_id, ← qubits_renamed, ← hkept]
  have hfixed : q = g q := List.map_inj_left.mp hqubits q hq
  by_contra hnot
  have hmoved : g q = q + 1 := if_neg hnot
  omega

/-! ## Equal circuits -/

theorem Circuit.equal_self (c : Circuit R) : c.equal c = c.all fun op => op.equal op := by
  induction c with
  | nil => rfl
  | cons op c ih => rw [equal, ih, List.all_cons]

/-- A circuit is equal to itself unless one of its parameters is not a number. -/
theorem Circuit.equal_self_iff {c : Circuit Float} :
    c.equal c = true ↔ ∀ op ∈ c, ∀ x, .literal x ∈ op.parameters → x.isNaN = false := by
  rw [Circuit.equal_self, List.all_eq_true]
  exact forall₂_congr fun op _ => Operation.equal_self_iff

/-! ## Composite gates -/

/-- Renaming commutes with taking the circuit of a composite gate, whether or not different qubits
get different names. One of the two can be renamed just when the other one can, and then the
circuit of the renamed gate and the renamed circuit have the same operations on the same qubits
with the same parameters. They compare as equal unless a parameter is not a number. -/
theorem circuit_of_renamed_gate {E : Type} (rename : ℕ → Except E ℕ)
    {op : Operation (Param Float)} {c : Circuit Float} (hc : op.circuit? = some (.ok c)) :
    ((∃ op', op.remap rename = .ok op') ↔ ∃ d, c.remap rename = .ok d) ∧
      ∀ op', op.remap rename = .ok op' →
        ∃ c' d, op'.circuit? = some (.ok c') ∧ c.remap rename = .ok d ∧ c' = d ∧
          (c'.equal d = true ↔
            ∀ o ∈ d, ∀ x, .literal x ∈ o.parameters → x.isNaN = false) := by
  have hnamed : (∀ q ∈ op.qubits, ∃ p, rename q = .ok p) ↔
      ∀ o ∈ c, ∀ q ∈ o.qubits, ∃ p, rename q = .ok p := by
    constructor
    · intro h o ho q hq
      exact h q (Operation.mem_qubits_of_circuit hc ho hq)
    · intro h q hq
      obtain ⟨o, ho, hqo⟩ := Operation.mentions_circuit hc hq
      exact h o ho q hqo
  constructor
  · simp only [Operation.remap_eq_ok_iff, Circuit.remap_eq_ok_iff, hnamed, exists_and_left,
      exists_eq, and_true]
  · intro op' hop'
    obtain ⟨hall, rfl⟩ := Operation.remap_eq_ok_iff.mp hop'
    refine ⟨_, _, ?_, Circuit.remap_eq_ok_iff.mpr ⟨hnamed.mp hall, rfl⟩, rfl,
      Circuit.equal_self_iff⟩
    rw [Operation.circuit?_renamed, hc]
    rfl

/-- A parity rotation of three qubits, two of which get the same name. -/
theorem circuit_of_gate_with_merged_qubits :
    let op : Operation (Param Float) := ⟨.register .zz, [3, 0, 2], .expression "t", ()⟩
    let op' : Operation (Param Float) := ⟨.register .zz, [1, 0, 0], .expression "t", ()⟩
    let c : Circuit Float :=
      [.cnot 3 0, .cnot 0 2, .rotateZ 2 (.expression "t"), .cnot 0 2, .cnot 3 0]
    let rename : ℕ → Except Unit ℕ := fun q => .ok (q % 2)
    op.circuit? = some (.ok c) ∧ op.remap rename = .ok op' ∧
      ((∃ g, op.remap rename = .ok g) ↔ ∃ d, c.remap rename = .ok d) ∧
      ∃ c' d, op'.circuit? = some (.ok c') ∧ c.remap rename = .ok d ∧ c' = d ∧
        (c'.equal d = true ↔
          ∀ o ∈ d, ∀ x, .literal x ∈ o.parameters → x.isNaN = false) := by
  intro op op' c rename
  have hc : op.circuit? = some (.ok c) := rfl
  have hop' : op.remap rename = .ok op' := rfl
  exact ⟨hc, hop', (circuit_of_renamed_gate rename hc).1,
    (circuit_of_renamed_gate rename hc).2 op' hop'⟩

/-- A parity rotation of one qubit by an angle that is not a number: the circuit of the renamed gate
and the renamed circuit are the same, and compare as different. -/
theorem circuits_of_undefined_angle :
    let angle : Param Float := .literal (0.0 / 0.0)
    let op : Operation (Param Float) := ⟨.register .zz, [0], angle, ()⟩
    let op' : Operation (Param Float) := ⟨.register .zz, [1], angle, ()⟩
    op.circuit? = some (.ok [.rotateZ 0 angle]) ∧
      op.remap (placeOn (R := Float) [1]) = .ok op' ∧
      op'.circuit? = some (.ok [.rotateZ 1 angle]) ∧
      Circuit.remap [.rotateZ 0 angle] (placeOn (R := Float) [1]) = .ok [.rotateZ 1 angle] ∧
      Circuit.equal [.rotateZ 1 angle] [.rotateZ 1 angle] = false := by
  intro angle op op'
  exact ⟨rfl, rfl, rfl, rfl, by decide +kernel⟩

end QuantumGates
