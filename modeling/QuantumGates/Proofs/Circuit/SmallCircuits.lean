-- What the circuits of composite gates are made of. Every builder only uses eight gates on one and
-- two qubits, and if the qubits of the composite gate are distinct, so are those of each gate: a
-- staircase pairs neighbours, the network a highest qubit with a lower one, the Fourier transform
-- two places of the list. The gates have expressions among their parameters just when the
-- composite gate does.
import QuantumGates.Proofs.Circuit.RenamedGates

namespace QuantumGates

/-! ## Small gates -/

/-- A gate on one qubit or on two distinct ones, of the kinds that circuits are made of. -/
inductive Operation.IsSmall {R : Type} : Operation (Param R) → Prop
  | hadamard (q : ℕ) : IsSmall (.hadamard q)
  | pauliX (q : ℕ) : IsSmall (.pauliX q)
  | tGate (q : ℕ) : IsSmall (.tGate q)
  | rotateZ (q : ℕ) (theta : Param R) : IsSmall (.rotateZ q theta)
  | phaseShift (q : ℕ) (theta : Param R) : IsSmall (.phaseShift q theta)
  | cnot {a b : ℕ} (h : a ≠ b) : IsSmall (.cnot a b)
  | swap {a b : ℕ} (h : a ≠ b) : IsSmall (.swap a b)
  | controlledPhase {a b : ℕ} (h : a ≠ b) (theta : Param R) : IsSmall (.controlledPhase a b theta)

/-- Circuits of small gates, `symbolic` telling whether one of them waits for values. -/
structure Circuit.IsBuilt {R : Type} [Scalar R] (symbolic : Bool) (c : Circuit R) : Prop where
  isSmall : ∀ op ∈ c, op.IsSmall
  isParametrized_eq : Circuit.isParametrized c = symbolic

variable {R : Type} [Scalar R]

namespace Circuit.IsBuilt

variable {c d : Circuit R} {op : Operation (Param R)} {s s' : Bool}

theorem nil : IsBuilt false ([] : Circuit R) := ⟨nofun, rfl⟩

theorem single (hop : op.IsSmall) (h : op.isParametrized = s) : IsBuilt s [op] where
  isSmall := List.forall_mem_singleton.mpr hop
  isParametrized_eq := (Bool.or_false _).trans h

theorem append (hc : IsBuilt s c) (hd : IsBuilt s' d) : IsBuilt (s || s') (c ++ d) where
  isSmall := List.forall_mem_append.mpr ⟨hc.isSmall, hd.isSmall⟩
  isParametrized_eq := by
    rw [← hc.isParametrized_eq, ← hd.isParametrized_eq]
    exact List.any_append

theorem append_same (hc : IsBuilt s c) (hd : IsBuilt s d) : IsBuilt s (c ++ d) :=
  Bool.or_self s ▸ hc.append hd

theorem append_plain (hc : IsBuilt s c) (hd : IsBuilt false d) : IsBuilt s (c ++ d) :=
  Bool.or_false s ▸ hc.append hd

/-- A gate like those behind it. -/
theorem same (hop : op.IsSmall) (h : op.isParametrized = s) (hc : IsBuilt s c) :
    IsBuilt s (op :: c) := (single hop h).append_same hc

/-- A gate before gates without expressions. -/
theorem first (hop : op.IsSmall) (h : op.isParametrized = s) (hc : IsBuilt false c) :
    IsBuilt s (op :: c) := (single hop h).append_plain hc

/-- A gate without expressions before others. -/
theorem plain (hop : op.IsSmall) (h : op.isParametrized = false) (hc : IsBuilt s c) :
    IsBuilt s (op :: c) := (single hop h).append hc

theorem reverse (hc : IsBuilt s c) : IsBuilt s c.reverse where
  isSmall op hop := hc.isSmall op (List.mem_reverse.mp hop)
  isParametrized_eq := by
    rw [← hc.isParametrized_eq]
    exact List.any_reverse

/-- Gates without expressions made of a list. -/
theorem map {A : Type} {f : A → Operation (Param R)} {xs : List A} (hf : ∀ x ∈ xs, (f x).IsSmall)
    (h : ∀ x ∈ xs, (f x).isParametrized = false) : IsBuilt false (xs.map f) where
  isSmall := List.forall_mem_map.mpr hf
  isParametrized_eq := List.any_eq_false.mpr fun op hop => by
    obtain ⟨x, hx, rfl⟩ := List.mem_map.mp hop
    exact Bool.eq_false_iff.mp (h x hx)

end Circuit.IsBuilt

open Circuit.IsBuilt

/-! ## Parameters -/

omit [Scalar R] in
theorem isParametrized_phaseShift (q : ℕ) (theta : Param R) :
    (Operation.phaseShift q theta).isParametrized = theta.isSymbolic := Bool.or_false _

omit [Scalar R] in
theorem isParametrized_rotateZ (q : ℕ) (theta : Param R) :
    (Operation.rotateZ q theta).isParametrized = theta.isSymbolic := Bool.or_false _

theorem Param.isSymbolic_neg (p : Param R) : p.neg.isSymbolic = p.isSymbolic := by
  cases p <;> rfl

/-- A share of a parameter is an expression if the parameter is one. -/
theorem Param.isSymbolic_div {p q : Param R} {y : R} (h : p.div (.literal y) = .ok q) :
    q.isSymbolic = p.isSymbolic := by
  unfold div at h
  split at h
  · cases h
  · cases p with
    | literal x =>
      cases h
      rfl
    | expression s =>
      cases h
      split
      · rfl
      · rfl

/-! ## The ladder -/

section

variable {plus minus : ℕ → Operation (Param R)} {s : Bool} {a b t : ℕ}

theorem isBuilt_ladderHead (hplus : ∀ q, (plus q).IsSmall ∧ (plus q).isParametrized = s)
    (hminus : ∀ q, (minus q).IsSmall ∧ (minus q).isParametrized = s) (hat : a ≠ t) (hbt : b ≠ t) :
    Circuit.IsBuilt s (ladderHead plus minus a b t) :=
  .plain (.cnot hbt) rfl (.same (hminus t).1 (hminus t).2 (.plain (.cnot hat) rfl
    (.same (hplus t).1 (hplus t).2 (.plain (.cnot hbt) rfl (.same (hminus t).1 (hminus t).2
      (.plain (.cnot hat) rfl (.same (hplus b).1 (hplus b).2
        (.single (hplus t).1 (hplus t).2))))))))

theorem isBuilt_ladderTail (hplus : ∀ q, (plus q).IsSmall ∧ (plus q).isParametrized = s)
    (hminus : ∀ q, (minus q).IsSmall ∧ (minus q).isParametrized = s) (hab : a ≠ b) :
    Circuit.IsBuilt s (ladderTail plus minus a b) :=
  .plain (.cnot hab) rfl (.same (hplus a).1 (hplus a).2
    (.first (hminus b).1 (hminus b).2 (.single (.cnot hab) rfl)))

omit [Scalar R] in
theorem isBuilt_tGate (q : ℕ) : (Operation.tGate q : Operation (Param R)).IsSmall ∧
    (Operation.tGate q : Operation (Param R)).isParametrized = false := ⟨.tGate q, rfl⟩

theorem isBuilt_backEighth (q : ℕ) : (backEighth q : Operation (Param R)).IsSmall ∧
    (backEighth q : Operation (Param R)).isParametrized = false := ⟨.phaseShift q _, rfl⟩

theorem isBuilt_signLadder (hab : a ≠ b) (hat : a ≠ t) (hbt : b ≠ t) :
    Circuit.IsBuilt false (signLadder a b t : Circuit R) :=
  (isBuilt_ladderHead isBuilt_tGate isBuilt_backEighth hat hbt).append
    (isBuilt_ladderTail isBuilt_tGate isBuilt_backEighth hab)

theorem isBuilt_toffoliCircuit (hab : a ≠ b) (hat : a ≠ t) (hbt : b ≠ t) :
    Circuit.IsBuilt false (toffoliCircuit a b t : Circuit R) :=
  Circuit.IsBuilt.append
    (.plain (.hadamard t) rfl (isBuilt_ladderHead isBuilt_tGate isBuilt_backEighth hat hbt))
    (.plain (.hadamard t) rfl (isBuilt_ladderTail isBuilt_tGate isBuilt_backEighth hab))

theorem isBuilt_phaseLadder {theta : Param R} {c : Circuit R}
    (hc : phaseLadder a b t theta = .ok c) (hab : a ≠ b) (hat : a ≠ t) (hbt : b ≠ t) :
    Circuit.IsBuilt theta.isSymbolic c := by
  obtain ⟨quarter, hquarter, hladder⟩ := bind_eq_ok hc
  cases hladder
  have hsymbolic := Param.isSymbolic_div hquarter
  have hplus (q : ℕ) : (Operation.phaseShift q quarter).IsSmall ∧
      (Operation.phaseShift q quarter).isParametrized = theta.isSymbolic :=
    ⟨.phaseShift q quarter, (isParametrized_phaseShift q quarter).trans hsymbolic⟩
  have hminus (q : ℕ) : (Operation.phaseShift q quarter.neg).IsSmall ∧
      (Operation.phaseShift q quarter.neg).isParametrized = theta.isSymbolic :=
    ⟨.phaseShift q quarter.neg, ((isParametrized_phaseShift q quarter.neg).trans
      quarter.isSymbolic_neg).trans hsymbolic⟩
  exact (isBuilt_ladderHead hplus hminus hat hbt).append_same
    (isBuilt_ladderTail hplus hminus hab)

end

/-! ## The parity network -/

/-- The flip is chosen by a bit of the code, which is the place of a lower qubit. -/
theorem mem_of_flip_mem_foldMove {lower : List ℕ} {accumulator code a b : ℕ}
    (hcode : code < 2 ^ lower.length) (h : NetworkMove.flip a b ∈ foldMove lower accumulator code) :
    a ∈ lower ∧ b = accumulator := by
  unfold foldMove at h
  split at h
  · cases h
  · rename_i hzero
    have hbit : highestBit code < lower.length := (Nat.log2_lt hzero).mpr hcode
    rw [List.mem_singleton, List.getElem?_eq_getElem hbit, Option.getD_some] at h
    obtain ⟨rfl, rfl⟩ := NetworkMove.flip.inj h
    exact ⟨List.getElem_mem hbit, rfl⟩

theorem mem_of_flip_mem_blockMoves {lower : List ℕ} {accumulator a b : ℕ}
    (h : NetworkMove.flip a b ∈ blockMoves lower accumulator) : a ∈ lower ∧ b = accumulator := by
  have hpos := Nat.two_pow_pos lower.length
  rcases List.mem_append.mp h with hstep | hlast
  · obtain ⟨step, hrange, hmove⟩ := List.mem_flatMap.mp hstep
    have hlt := List.mem_range.mp hrange
    rcases List.mem_append.mp hmove with hfold | hphase
    · exact mem_of_flip_mem_foldMove
        (Nat.xor_lt_two_pow (grayCode_lt hlt) (grayCode_lt (by omega))) hfold
    · cases List.mem_singleton.mp hphase
  · exact mem_of_flip_mem_foldMove (grayCode_lt (by omega)) hlast

/-- Each flip of the network is between a qubit and an earlier one. -/
theorem ne_of_flip_mem_networkMoves {qs : List ℕ} (hd : qs.Nodup) {a b : ℕ}
    (h : NetworkMove.flip a b ∈ networkMoves qs) : a ≠ b := by
  obtain ⟨highest, hrange, hblock⟩ := List.mem_flatMap.mp h
  have hlt : highest < qs.length := by simpa using hrange
  rw [List.getElem?_eq_getElem hlt, Option.getD_some] at hblock
  obtain ⟨hmem, rfl⟩ := mem_of_flip_mem_blockMoves hblock
  rintro rfl
  exact getElem_notMem_take hd hlt hmem

theorem isParametrized_gate (angle : Param R) (move : NetworkMove) :
    (move.gate angle).isParametrized =
      match move with
      | .flip _ _ => false
      | .phase _ _ => angle.isSymbolic := by
  cases move with
  | flip => rfl
  | phase q forward =>
    show (Operation.phaseShift q (if forward then angle else angle.neg)).isParametrized = _
    rw [isParametrized_phaseShift]
    cases forward with
    | true => rfl
    | false => exact angle.isSymbolic_neg

theorem isBuilt_networkMoves {qs : List ℕ} (hne : qs ≠ []) (hd : qs.Nodup) (angle : Param R) :
    Circuit.IsBuilt angle.isSymbolic ((networkMoves qs).map (NetworkMove.gate angle)) where
  isSmall := by
    refine List.forall_mem_map.mpr fun move hmove => ?_
    cases move with
    | flip a b => exact .cnot (ne_of_flip_mem_networkMoves hd hmove)
    | phase q forward => exact .phaseShift q _
  isParametrized_eq := by
    have hphase := phase_mem_networkMoves (List.head_mem hne)
    rw [Bool.eq_iff_iff]
    constructor
    · intro hany
      obtain ⟨op, hop, hsymbolic⟩ := List.any_eq_true.mp hany
      obtain ⟨move, -, rfl⟩ := List.mem_map.mp hop
      rw [isParametrized_gate] at hsymbolic
      cases move with
      | flip => cases hsymbolic
      | phase => exact hsymbolic
    · intro hsymbolic
      refine List.any_eq_true.mpr ⟨_, List.mem_map_of_mem hphase, ?_⟩
      rw [isParametrized_gate]
      exact hsymbolic

theorem isBuilt_parityNetwork {qs : List ℕ} (hne : qs ≠ []) (hd : qs.Nodup) {theta : Param R}
    {c : Circuit R} (hc : parityNetwork qs theta = .ok c) :
    Circuit.IsBuilt theta.isSymbolic c := by
  rw [parityNetwork_eq hne] at hc
  obtain ⟨power, -, hc⟩ := bind_eq_ok hc
  obtain ⟨angle, hangle, hc⟩ := bind_eq_ok hc
  cases hc
  exact Param.isSymbolic_div hangle ▸ isBuilt_networkMoves hne hd angle

theorem isBuilt_networkNot {qs : List ℕ} (hne : qs ≠ []) (hd : qs.Nodup) {c : Circuit R}
    (hc : networkNot qs = .ok c) : Circuit.IsBuilt false c := by
  obtain ⟨network, hnetwork, hc⟩ := bind_eq_ok hc
  cases hc
  exact (Circuit.IsBuilt.plain (.hadamard _) rfl
    (isBuilt_parityNetwork hne hd hnetwork)).append (.single (.hadamard _) rfl)

theorem isBuilt_controlledNot {qs : List ℕ} (hd : qs.Nodup) {c : Circuit R}
    (hc : controlledNot qs = .ok c) : Circuit.IsBuilt false c := by
  match qs, hd, hc with
  | [q], _, rfl => exact .single (.pauliX q) rfl
  | [a, b], hd, rfl => exact .single (.cnot (by simpa using hd)) rfl
  | [a, b, t], hd, rfl =>
    obtain ⟨⟨hab, hat⟩, hbt⟩ : (a ≠ b ∧ a ≠ t) ∧ b ≠ t := by simpa using hd
    exact isBuilt_toffoliCircuit hab hat hbt
  | a :: b :: t :: u :: rest, hd, hc => exact isBuilt_networkNot (List.cons_ne_nil _ _) hd hc

/-! ## Rotations of many qubits -/

theorem isBuilt_stairs {qs : List ℕ} (hd : qs.Nodup) :
    Circuit.IsBuilt false (flipCircuit (stairs qs) : Circuit R) := by
  refine .map (fun flip hflip => ?_) fun _ _ => rfl
  obtain ⟨n, hn⟩ : ∃ n, ∀ q ∈ qs, q < n :=
    ⟨qs.sum + 1, fun q hq => Nat.lt_succ_of_le (List.le_sum_of_mem hq)⟩
  exact .cnot (validFlips_stairs hd hn flip hflip).2.2

theorem isBuilt_stairs_rotation {qs : List ℕ} (hd : qs.Nodup) (q : ℕ) (theta : Param R) :
    Circuit.IsBuilt theta.isSymbolic
      (flipCircuit (stairs qs) ++ .rotateZ q theta :: flipCircuit (stairs qs).reverse) := by
  have hreverse : Circuit.IsBuilt false (flipCircuit (stairs qs).reverse : Circuit R) := by
    unfold flipCircuit
    rw [List.map_reverse]
    exact (isBuilt_stairs hd).reverse
  exact (isBuilt_stairs hd).append
    (.first (.rotateZ q theta) (isParametrized_rotateZ q theta) hreverse)

theorem isBuilt_parityRotation {qs : List ℕ} (hne : qs ≠ []) (hd : qs.Nodup) {theta : Param R}
    {c : Circuit R} (hc : parityRotation qs theta = .ok c) :
    Circuit.IsBuilt theta.isSymbolic c := by
  rw [parityRotation_eq hne] at hc
  cases hc
  exact isBuilt_stairs_rotation hd _ theta

theorem isBuilt_flipRotation {qs : List ℕ} (hne : qs ≠ []) (hd : qs.Nodup) {theta : Param R}
    {c : Circuit R} (hc : flipRotation qs theta = .ok c) :
    Circuit.IsBuilt theta.isSymbolic c := by
  have hlayer : Circuit.IsBuilt false (qs.map Operation.hadamard : Circuit R) :=
    .map (fun q _ => .hadamard q) fun _ _ => rfl
  rw [flipRotation_eq hne] at hc
  cases hc
  exact (hlayer.append (isBuilt_stairs_rotation hd _ theta)).append_plain hlayer

/-! ## The Fourier transform -/

theorem isBuilt_phasesTo {sign : R} {q k : ℕ} {rest : List ℕ} (hq : q ∉ rest) {c : Circuit R}
    (hc : phasesTo sign q k rest = .ok c) : Circuit.IsBuilt false c := by
  induction rest generalizing k c with
  | nil =>
    cases hc
    exact .nil
  | cons p rest ih =>
    obtain ⟨power, -, hc⟩ := bind_eq_ok hc
    obtain ⟨phases, hphases, hc⟩ := bind_eq_ok hc
    cases hc
    rw [List.mem_cons, not_or] at hq
    exact .plain (.controlledPhase (Ne.symm hq.1) _) rfl (ih hq.2 hphases)

theorem isBuilt_fourierLadder {sign : R} {qs : List ℕ} (hd : qs.Nodup) {c : Circuit R}
    (hc : fourierLadder sign qs = .ok c) : Circuit.IsBuilt false c := by
  induction qs generalizing c with
  | nil =>
    cases hc
    exact .nil
  | cons q qs ih =>
    obtain ⟨hq, hd⟩ := List.nodup_cons.mp hd
    obtain ⟨phases, hphases, hc⟩ := bind_eq_ok hc
    obtain ⟨rest, hrest, hc⟩ := bind_eq_ok hc
    cases hc
    exact (Circuit.IsBuilt.plain (.hadamard q) rfl (isBuilt_phasesTo hq hphases)).append
      (ih hd hrest)

/-- A place of the first half and its mirror image are different. -/
theorem isBuilt_reversal {qs : List ℕ} (hd : qs.Nodup) :
    Circuit.IsBuilt false (reversal qs : Circuit R) := by
  refine .map (fun pair hpair => ?_) fun _ _ => rfl
  obtain ⟨i, hi, rfl⟩ := List.getElem_of_mem hpair
  have hhalf : i < qs.length / 2 := by
    rw [List.length_take] at hi
    omega
  rw [List.getElem_take, List.getElem_zip]
  refine .swap fun hsame => ?_
  rw [List.getElem_reverse] at hsame
  have := hd.getElem_inj_iff.mp hsame
  omega

theorem isBuilt_fourierCircuit {qs : List ℕ} (hd : qs.Nodup) {swaps inverse : Bool}
    {c : Circuit R} (hc : fourierCircuit qs swaps inverse = .ok c) : Circuit.IsBuilt false c := by
  have hexchanges : Circuit.IsBuilt false (if swaps then reversal qs else [] : Circuit R) := by
    cases swaps with
    | true => exact isBuilt_reversal hd
    | false => exact .nil
  obtain ⟨steps, hsteps, hc⟩ := bind_eq_ok hc
  have hladder := isBuilt_fourierLadder hd hsteps
  cases inverse with
  | true =>
    cases hc
    exact hexchanges.append hladder
  | false =>
    cases hc
    exact hladder.append hexchanges

/-! ## Composite gates -/

theorem isBuilt_phaseOnEach {qs : List ℕ} (hne : qs ≠ []) (phi : Param R) :
    Circuit.IsBuilt phi.isSymbolic (phaseOnEach qs phi) := by
  induction qs with
  | nil => exact absurd rfl hne
  | cons q qs ih =>
    have hgate := isParametrized_phaseShift q phi
    cases qs with
    | nil => exact .single (.phaseShift q phi) hgate
    | cons r qs => exact .same (.phaseShift q phi) hgate (ih (List.cons_ne_nil r qs))

theorem ThreeKind.isBuilt_circuit (k : ThreeKind) {args : Args (Param R) k.fields} {c : Circuit R}
    (hc : k.circuit args = .ok c) (hd : (Operation.qubits ⟨.three k, args⟩).Nodup) :
    Circuit.IsBuilt (Operation.isParametrized ⟨.three k, args⟩) c := by
  have hdistinct {a b t : ℕ} (h : [a, b, t].Nodup) : a ≠ b ∧ a ≠ t ∧ b ≠ t := by
    simpa [and_assoc] using h
  cases k with
  | controlledControlledPauliZ =>
    obtain ⟨a, b, t, _⟩ := args
    obtain ⟨hab, hat, hbt⟩ := hdistinct hd
    cases hc
    exact isBuilt_signLadder hab hat hbt
  | controlledControlledPhaseShift =>
    obtain ⟨a, b, t, theta, _⟩ := args
    obtain ⟨hab, hat, hbt⟩ := hdistinct hd
    have hparametrized : Operation.isParametrized
        ⟨.three .controlledControlledPhaseShift, a, b, t, theta, ()⟩ = theta.isSymbolic :=
      Bool.or_false _
    exact hparametrized ▸ isBuilt_phaseLadder hc hab hat hbt
  | toffoli =>
    obtain ⟨a, b, t, _⟩ := args
    obtain ⟨hab, hat, hbt⟩ := hdistinct hd
    cases hc
    exact isBuilt_toffoliCircuit hab hat hbt
  | controlledSwap =>
    obtain ⟨a, b, t, _⟩ := args
    obtain ⟨hab, hat, hbt⟩ := hdistinct hd
    cases hc
    exact (Circuit.IsBuilt.plain (.cnot hbt.symm) rfl
      (isBuilt_toffoliCircuit hab hat hbt)).append (.single (.cnot hbt.symm) rfl)
  | phaseShiftedControlledControlledZ =>
    obtain ⟨a, b, t, phi, _⟩ := args
    obtain ⟨hab, hat, hbt⟩ := hdistinct hd
    have hparametrized : Operation.isParametrized
        ⟨.three .phaseShiftedControlledControlledZ, a, b, t, phi, ()⟩ = phi.isSymbolic :=
      Bool.or_false _
    cases hc
    exact hparametrized ▸ (isBuilt_signLadder hab hat hbt).append
      (isBuilt_phaseOnEach (List.cons_ne_nil a [b, t]) phi)
  | phaseShiftedControlledControlledPhase =>
    obtain ⟨a, b, t, theta, phi, _⟩ := args
    obtain ⟨hab, hat, hbt⟩ := hdistinct hd
    have hparametrized : Operation.isParametrized
        ⟨.three .phaseShiftedControlledControlledPhase, a, b, t, theta, phi, ()⟩ =
        (theta.isSymbolic || phi.isSymbolic) := congrArg (theta.isSymbolic || ·) (Bool.or_false _)
    obtain ⟨ladder, hladder, hc⟩ := bind_eq_ok hc
    cases hc
    exact hparametrized ▸ (isBuilt_phaseLadder hladder hab hat hbt).append
      (isBuilt_phaseOnEach (List.cons_ne_nil a [b, t]) phi)

theorem FourKind.isBuilt_circuit (k : FourKind) {args : Args (Param R) k.fields} {c : Circuit R}
    (hc : k.circuit args = .ok c) (hd : (Operation.qubits ⟨.four k, args⟩).Nodup) :
    Circuit.IsBuilt (Operation.isParametrized ⟨.four k, args⟩) c := by
  cases k with
  | tripleControlledPauliX => exact isBuilt_networkNot (List.cons_ne_nil _ _) hd hc
  | tripleControlledPauliZ => exact isBuilt_parityNetwork (List.cons_ne_nil _ _) hd hc
  | tripleControlledPhaseShift =>
    obtain ⟨a, b, c, t, theta, _⟩ := args
    have hparametrized : Operation.isParametrized
        ⟨.four .tripleControlledPhaseShift, a, b, c, t, theta, ()⟩ = theta.isSymbolic :=
      Bool.or_false _
    exact hparametrized ▸ isBuilt_parityNetwork (List.cons_ne_nil _ _) hd hc

theorem RegisterKind.isBuilt_circuit (k : RegisterKind) {args : Args (Param R) k.fields}
    {c : Circuit R} (hc : k.circuit args = .ok c)
    (hne : Operation.qubits ⟨.register k, args⟩ ≠ [])
    (hd : (Operation.qubits ⟨.register k, args⟩).Nodup) :
    Circuit.IsBuilt (Operation.isParametrized ⟨.register k, args⟩) c := by
  cases k with
  | ms =>
    obtain ⟨qs, theta, _⟩ := args
    have hqubits : Operation.qubits ⟨.register .ms, qs, theta, ()⟩ = qs := List.append_nil qs
    have hparametrized : Operation.isParametrized ⟨.register .ms, qs, theta, ()⟩ =
        theta.isSymbolic := Bool.or_false _
    rw [hqubits] at hne hd
    exact hparametrized ▸ isBuilt_flipRotation hne hd hc
  | zz =>
    obtain ⟨qs, theta, _⟩ := args
    have hqubits : Operation.qubits ⟨.register .zz, qs, theta, ()⟩ = qs := List.append_nil qs
    have hparametrized : Operation.isParametrized ⟨.register .zz, qs, theta, ()⟩ =
        theta.isSymbolic := Bool.or_false _
    rw [hqubits] at hne hd
    exact hparametrized ▸ isBuilt_parityRotation hne hd hc
  | cnot =>
    obtain ⟨qs, _⟩ := args
    exact isBuilt_controlledNot (List.append_nil qs ▸ hd) hc
  | qft =>
    obtain ⟨qs, swaps, inverse, _⟩ := args
    exact isBuilt_fourierCircuit (List.append_nil qs ▸ hd) hc

/-- The circuit of a gate on distinct qubits is built of small gates, and it waits for values if
the gate does. -/
theorem Operation.isBuilt_circuit {op : Operation (Param R)} {c : Circuit R}
    (hc : op.circuit? = some (.ok c)) (hne : op.qubits ≠ []) (hd : op.qubits.Nodup) :
    Circuit.IsBuilt op.isParametrized c := by
  obtain ⟨k, args⟩ := op
  cases k with
  | single => cases hc
  | two => cases hc
  | three k => exact k.isBuilt_circuit (Option.some.inj hc) hd
  | four k => exact k.isBuilt_circuit (Option.some.inj hc) hd
  | register k => exact k.isBuilt_circuit (Option.some.inj hc) hne hd
  | call => cases hc

end QuantumGates
