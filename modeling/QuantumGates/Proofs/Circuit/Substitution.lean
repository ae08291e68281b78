-- Circuits of composite gates with symbolic parameters in exact arithmetic. The builders only take
-- shares of a parameter and their opposites, so the circuit of a gate with plain parameters
-- evaluates, operation by operation, to the circuit of the evaluated gate. A comment in a parameter
-- breaks this: it hides the bracket that closes the parameter in a longer expression.
import QuantumGates.Proofs.Circuit.FlipRotation
import QuantumGates.Proofs.Exact.NamedNumbers
import QuantumGates.Proofs.Exact.Operations

namespace QuantumGates

variable {R : Type} [ExactScalar R] {E : ExactEvaluation R} {b : Bindings R}

/-! ## Gates -/

section

variable {p p' : Param R}

theorem evaluates_cnot (c t : ℕ) : (Operation.cnot c t).EvaluatesTo E b (.cnot c t) :=
  ⟨⟨rfl, rfl, trivial⟩⟩

theorem evaluates_swap (q r : ℕ) : (Operation.swap q r).EvaluatesTo E b (.swap q r) :=
  ⟨⟨rfl, rfl, trivial⟩⟩

theorem evaluates_hadamard (q : ℕ) : (Operation.hadamard q).EvaluatesTo E b (.hadamard q) :=
  ⟨⟨rfl, trivial⟩⟩

theorem evaluates_pauliX (q : ℕ) : (Operation.pauliX q).EvaluatesTo E b (.pauliX q) :=
  ⟨⟨rfl, trivial⟩⟩

theorem evaluates_tGate (q : ℕ) : (Operation.tGate q).EvaluatesTo E b (.tGate q) :=
  ⟨⟨rfl, trivial⟩⟩

theorem evaluates_phaseShift (hp : p.EvaluatesTo E b p') (q : ℕ) :
    (Operation.phaseShift q p).EvaluatesTo E b (.phaseShift q p') := ⟨⟨rfl, hp, trivial⟩⟩

theorem evaluates_rotateZ (hp : p.EvaluatesTo E b p') (q : ℕ) :
    (Operation.rotateZ q p).EvaluatesTo E b (.rotateZ q p') := ⟨⟨rfl, hp, trivial⟩⟩

theorem evaluates_controlledPhase (hp : p.EvaluatesTo E b p') (c t : ℕ) :
    (Operation.controlledPhase c t p).EvaluatesTo E b (.controlledPhase c t p') :=
  ⟨⟨rfl, rfl, hp, trivial⟩⟩

end

/-- Circuits made of the same list by gates that evaluate to each other. -/
theorem Circuit.EvaluatesTo.map {A : Type} {f f' : A → Operation (Param R)}
    (h : ∀ x, (f x).EvaluatesTo E b (f' x)) (xs : List A) :
    Circuit.EvaluatesTo E b (xs.map f) (xs.map f') := by
  induction xs with
  | nil => exact .nil
  | cons x xs ih => exact .cons (h x) ih

theorem Circuit.EvaluatesTo.append {c c' d d' : Circuit R} (hc : c.EvaluatesTo E b c')
    (hd : d.EvaluatesTo E b d') : Circuit.EvaluatesTo E b (c ++ d) (c' ++ d') :=
  List.rel_append hc hd

/-! ## The ladder -/

section

variable {plus plus' minus minus' : ℕ → Operation (Param R)}

theorem evaluates_ladderHead (hplus : ∀ q, (plus q).EvaluatesTo E b (plus' q))
    (hminus : ∀ q, (minus q).EvaluatesTo E b (minus' q)) (r s t : ℕ) :
    Circuit.EvaluatesTo E b (ladderHead plus minus r s t) (ladderHead plus' minus' r s t) :=
  .cons (evaluates_cnot s t) (.cons (hminus t) (.cons (evaluates_cnot r t) (.cons (hplus t)
    (.cons (evaluates_cnot s t) (.cons (hminus t) (.cons (evaluates_cnot r t)
      (.cons (hplus s) (.cons (hplus t) .nil))))))))

theorem evaluates_ladderTail (hplus : ∀ q, (plus q).EvaluatesTo E b (plus' q))
    (hminus : ∀ q, (minus q).EvaluatesTo E b (minus' q)) (r s : ℕ) :
    Circuit.EvaluatesTo E b (ladderTail plus minus r s) (ladderTail plus' minus' r s) :=
  .cons (evaluates_cnot r s) (.cons (hplus r) (.cons (hminus s) (.cons (evaluates_cnot r s) .nil)))

theorem evaluates_backEighth (q : ℕ) :
    (backEighth q : Operation (Param R)).EvaluatesTo E b (backEighth q) :=
  evaluates_phaseShift (.literal _) q

theorem evaluates_signLadder (r s t : ℕ) :
    Circuit.EvaluatesTo E b (signLadder r s t) (signLadder r s t) :=
  (evaluates_ladderHead evaluates_tGate evaluates_backEighth r s t).append
    (evaluates_ladderTail evaluates_tGate evaluates_backEighth r s)

theorem evaluates_toffoliCircuit (r s t : ℕ) :
    Circuit.EvaluatesTo E b (toffoliCircuit r s t) (toffoliCircuit r s t) :=
  Circuit.EvaluatesTo.append
    (.cons (evaluates_hadamard t)
      (evaluates_ladderHead evaluates_tGate evaluates_backEighth r s t))
    (.cons (evaluates_hadamard t) (evaluates_ladderTail evaluates_tGate evaluates_backEighth r s))

/-- The quarters of a parameter evaluate to those of its value. -/
theorem evaluates_phaseLadder {p p' : Param R} (hp : p.EvaluatesTo E b p') (r s t : ℕ) :
    BothOk (Circuit.EvaluatesTo E b) (phaseLadder r s t p) (phaseLadder r s t p') :=
  (hp.div (ExactScalar.whole_ne_zero four_ne_zero)).bind fun _ _ hquarter =>
    .ok ((evaluates_ladderHead (evaluates_phaseShift hquarter)
      (evaluates_phaseShift hquarter.neg) r s t).append
        (evaluates_ladderTail (evaluates_phaseShift hquarter)
          (evaluates_phaseShift hquarter.neg) r s))

end

/-! ## Quarters without a value -/

section

variable {S : Type} (p : Param S) (evaluate : String → Except (Fault S) S)

theorem substitute_cnot (c t : ℕ) :
    (Operation.cnot c t : Operation (Param S)).substitute evaluate = .ok (.cnot c t) := rfl

theorem substitute_phaseShift (q : ℕ) :
    (Operation.phaseShift q p).substitute evaluate =
      (p.substitute evaluate).map (Operation.phaseShift q) := by
  unfold Operation.substitute Operation.mapParameters Operation.phaseShift
  simp only [Args.traverse, FieldKind.traverse]
  cases p.substitute evaluate <;> rfl

/-- A doubly controlled phase. -/
def doublyControlledPhase (r s t : ℕ) (p : Param S) : Operation (Param S) :=
  ⟨.three .controlledControlledPhaseShift, r, s, t, p, ()⟩

theorem substitute_doublyControlledPhase (r s t : ℕ) :
    (doublyControlledPhase r s t p).substitute evaluate =
      (p.substitute evaluate).map (doublyControlledPhase r s t) := by
  unfold Operation.substitute Operation.mapParameters doublyControlledPhase
  simp only [Args.traverse, FieldKind.traverse]
  cases p.substitute evaluate <;> rfl

/-- The second gate of the ladder has the opposite of a quarter as its phase, and no value of it
means no value of the ladder. -/
theorem substitute_phaseLadder_eq_error [Scalar S] {quarter : Param S} {fault : Fault S} (r s t : ℕ)
    (hquarter : p.div (.literal (Scalar.whole 4)) = .ok quarter)
    (hfault : quarter.neg.substitute evaluate = .error fault) :
    ∃ c, (doublyControlledPhase r s t p).circuit? = some (.ok c) ∧
      c.substitute evaluate = .error fault := by
  refine ⟨ladder (Operation.phaseShift · quarter) (Operation.phaseShift · quarter.neg) r s t,
    ?_, ?_⟩
  · show some (phaseLadder r s t p) = _
    unfold phaseLadder
    rw [hquarter]
    rfl
  · unfold Circuit.substitute ladder ladderHead
    rw [List.cons_append, List.mapM_cons, substitute_cnot, List.cons_append, List.mapM_cons,
      substitute_phaseShift, hfault]
    rfl

end

/-! ## The parity network -/

theorem powerOfTwo?_eq_whole (k : ℕ) :
    (powerOfTwo? k : Except (Fault R) R) = .ok (Scalar.whole (2 ^ k)) := by
  unfold powerOfTwo?
  simp only [ExactScalar.isFinite_eq, if_true, Nat.pow_eq]

theorem evaluates_move {p p' : Param R} (hp : p.EvaluatesTo E b p') (move : NetworkMove) :
    (move.gate p).EvaluatesTo E b (move.gate p') := by
  cases move with
  | flip control target => exact evaluates_cnot control target
  | phase qubit forward =>
    cases forward with
    | true => exact evaluates_phaseShift hp qubit
    | false => exact evaluates_phaseShift hp.neg qubit

/-- The shares of a parameter in the network evaluate to those of its value. -/
theorem evaluates_parityNetwork {qs : List ℕ} (hne : qs ≠ []) {p p' : Param R}
    (hp : p.EvaluatesTo E b p') :
    BothOk (Circuit.EvaluatesTo E b) (parityNetwork qs p) (parityNetwork qs p') := by
  have hpower : (Scalar.whole (2 ^ (qs.length - 1)) : R) ≠ 0 :=
    ExactScalar.whole_ne_zero (Nat.two_pow_pos _).ne'
  rw [parityNetwork_eq hne, parityNetwork_eq hne, powerOfTwo?_eq_whole]
  exact (hp.div hpower).bind fun _ _ hangle => .ok (.map (evaluates_move hangle) _)

theorem evaluates_networkNot {qs : List ℕ} (hne : qs ≠ []) :
    BothOk (Circuit.EvaluatesTo E b) (networkNot qs) (networkNot qs) :=
  (evaluates_parityNetwork hne (.literal Scalar.pi)).bind fun _ _ hnetwork =>
    .ok (Circuit.EvaluatesTo.append (.cons (evaluates_hadamard _) hnetwork)
      (.cons (evaluates_hadamard _) .nil))

theorem evaluates_controlledNot {qs : List ℕ} (hne : qs ≠ []) :
    BothOk (Circuit.EvaluatesTo E b) (controlledNot qs) (controlledNot qs) := by
  match qs, hne with
  | [q], _ => exact .ok (.cons (evaluates_pauliX q) .nil)
  | [q, r], _ => exact .ok (.cons (evaluates_cnot q r) .nil)
  | [q, r, t], _ => exact .ok (evaluates_toffoliCircuit q r t)
  | q :: r :: t :: u :: rest, hne => exact evaluates_networkNot hne

/-! ## Rotations of many qubits -/

theorem evaluates_flipCircuit (flips : List (ℕ × ℕ)) :
    Circuit.EvaluatesTo E b (flipCircuit flips) (flipCircuit flips) :=
  .map (fun flip => evaluates_cnot flip.1 flip.2) flips

theorem evaluates_stairs_rotation {qs : List ℕ} (hne : qs ≠ []) {p p' : Param R}
    (hp : p.EvaluatesTo E b p') :
    Circuit.EvaluatesTo E b
      (flipCircuit (stairs qs) ++ .rotateZ (qs.getLast hne) p :: flipCircuit (stairs qs).reverse)
      (flipCircuit (stairs qs) ++
        .rotateZ (qs.getLast hne) p' :: flipCircuit (stairs qs).reverse) :=
  (evaluates_flipCircuit _).append (.cons (evaluates_rotateZ hp _) (evaluates_flipCircuit _))

theorem evaluates_parityRotation {qs : List ℕ} (hne : qs ≠ []) {p p' : Param R}
    (hp : p.EvaluatesTo E b p') :
    BothOk (Circuit.EvaluatesTo E b) (parityRotation qs p) (parityRotation qs p') := by
  rw [parityRotation_eq hne, parityRotation_eq hne]
  exact .ok (evaluates_stairs_rotation hne hp)

theorem evaluates_flipRotation {qs : List ℕ} (hne : qs ≠ []) {p p' : Param R}
    (hp : p.EvaluatesTo E b p') :
    BothOk (Circuit.EvaluatesTo E b) (flipRotation qs p) (flipRotation qs p') := by
  have hlayer : Circuit.EvaluatesTo E b (qs.map .hadamard) (qs.map .hadamard) :=
    .map evaluates_hadamard qs
  rw [flipRotation_eq hne, flipRotation_eq hne]
  exact .ok ((hlayer.append (evaluates_stairs_rotation hne hp)).append hlayer)

/-! ## The Fourier transform -/

theorem evaluates_phasesTo (sign : R) (q k : ℕ) (rest : List ℕ) :
    BothOk (Circuit.EvaluatesTo E b) (phasesTo sign q k rest) (phasesTo sign q k rest) := by
  induction rest generalizing k with
  | nil => exact .ok .nil
  | cons r rest ih =>
    unfold phasesTo
    rw [powerOfTwo?_eq_whole]
    exact (ih (k + 1)).bind fun _ _ hrest =>
      .ok (.cons (evaluates_controlledPhase (.literal _) r q) hrest)

theorem evaluates_fourierLadder (sign : R) (qs : List ℕ) :
    BothOk (Circuit.EvaluatesTo E b) (fourierLadder sign qs) (fourierLadder sign qs) := by
  induction qs with
  | nil => exact .ok .nil
  | cons q qs ih =>
    unfold fourierLadder
    exact (evaluates_phasesTo sign q 1 qs).bind fun _ _ hphases => ih.bind fun _ _ hrest =>
      .ok (Circuit.EvaluatesTo.append (.cons (evaluates_hadamard q) hphases) hrest)

theorem evaluates_fourierCircuit (qs : List ℕ) (swaps inverse : Bool) :
    BothOk (Circuit.EvaluatesTo E b) (fourierCircuit qs swaps inverse)
      (fourierCircuit qs swaps inverse) := by
  have hreversal : Circuit.EvaluatesTo E b (reversal qs) (reversal qs) :=
    .map (fun pair : ℕ × ℕ => evaluates_swap pair.1 pair.2) _
  have hexchanges : Circuit.EvaluatesTo E b (if swaps then reversal qs else [])
      (if swaps then reversal qs else []) := by
    cases swaps with
    | true => exact hreversal
    | false => exact .nil
  have hladder : BothOk (Circuit.EvaluatesTo E b)
      (fourierLadder (if inverse then -1 else 1) qs)
      (fourierLadder (if inverse then -1 else 1) qs) := evaluates_fourierLadder _ qs
  refine hladder.bind fun _ _ hsteps => ?_
  cases inverse with
  | true => exact .ok (hexchanges.append hsteps)
  | false => exact .ok (hsteps.append hexchanges)

/-! ## Composite gates -/

theorem evaluates_phaseOnEach {p p' : Param R} (hp : p.EvaluatesTo E b p') (qs : List ℕ) :
    Circuit.EvaluatesTo E b (phaseOnEach qs p) (phaseOnEach qs p') :=
  .map (evaluates_phaseShift hp) qs

theorem ThreeKind.circuit_evaluates (k : ThreeKind) {args args' : Args (Param R) k.fields}
    (h : args.EvaluatesTo E b k.fields args') :
    BothOk (Circuit.EvaluatesTo E b) (k.circuit args) (k.circuit args') := by
  cases k with
  | controlledControlledPauliZ =>
    obtain ⟨r, s, t, _⟩ := args
    obtain ⟨r', s', t', _⟩ := args'
    obtain ⟨⟨⟩, ⟨⟩, ⟨⟩, -⟩ := h
    exact .ok (evaluates_signLadder r s t)
  | controlledControlledPhaseShift =>
    obtain ⟨r, s, t, theta, _⟩ := args
    obtain ⟨r', s', t', theta', _⟩ := args'
    obtain ⟨⟨⟩, ⟨⟩, ⟨⟩, htheta, -⟩ := h
    exact evaluates_phaseLadder htheta r s t
  | toffoli =>
    obtain ⟨r, s, t, _⟩ := args
    obtain ⟨r', s', t', _⟩ := args'
    obtain ⟨⟨⟩, ⟨⟩, ⟨⟩, -⟩ := h
    exact .ok (evaluates_toffoliCircuit r s t)
  | controlledSwap =>
    obtain ⟨r, s, t, _⟩ := args
    obtain ⟨r', s', t', _⟩ := args'
    obtain ⟨⟨⟩, ⟨⟩, ⟨⟩, -⟩ := h
    exact .ok (Circuit.EvaluatesTo.append
      (.cons (evaluates_cnot t s) (evaluates_toffoliCircuit r s t))
      (.cons (evaluates_cnot t s) .nil))
  | phaseShiftedControlledControlledZ =>
    obtain ⟨r, s, t, phi, _⟩ := args
    obtain ⟨r', s', t', phi', _⟩ := args'
    obtain ⟨⟨⟩, ⟨⟩, ⟨⟩, hphi, -⟩ := h
    exact .ok ((evaluates_signLadder r s t).append (evaluates_phaseOnEach hphi [r, s, t]))
  | phaseShiftedControlledControlledPhase =>
    obtain ⟨r, s, t, theta, phi, _⟩ := args
    obtain ⟨r', s', t', theta', phi', _⟩ := args'
    obtain ⟨⟨⟩, ⟨⟩, ⟨⟩, htheta, hphi, -⟩ := h
    exact (evaluates_phaseLadder htheta r s t).bind fun _ _ hladder =>
      .ok (hladder.append (evaluates_phaseOnEach hphi [r, s, t]))

theorem FourKind.circuit_evaluates (k : FourKind) {args args' : Args (Param R) k.fields}
    (h : args.EvaluatesTo E b k.fields args') :
    BothOk (Circuit.EvaluatesTo E b) (k.circuit args) (k.circuit args') := by
  cases k with
  | tripleControlledPauliX =>
    obtain ⟨r, s, t, u, _⟩ := args
    obtain ⟨r', s', t', u', _⟩ := args'
    obtain ⟨⟨⟩, ⟨⟩, ⟨⟩, ⟨⟩, -⟩ := h
    exact evaluates_networkNot (List.cons_ne_nil r [s, t, u])
  | tripleControlledPauliZ =>
    obtain ⟨r, s, t, u, _⟩ := args
    obtain ⟨r', s', t', u', _⟩ := args'
    obtain ⟨⟨⟩, ⟨⟩, ⟨⟩, ⟨⟩, -⟩ := h
    exact evaluates_parityNetwork (List.cons_ne_nil r [s, t, u]) (.literal Scalar.pi)
  | tripleControlledPhaseShift =>
    obtain ⟨r, s, t, u, theta, _⟩ := args
    obtain ⟨r', s', t', u', theta', _⟩ := args'
    obtain ⟨⟨⟩, ⟨⟩, ⟨⟩, ⟨⟩, htheta, -⟩ := h
    exact evaluates_parityNetwork (List.cons_ne_nil r [s, t, u]) htheta

/-- Without qubits only the Fourier transform has a circuit. -/
theorem RegisterKind.circuit_evaluates (k : RegisterKind) {args args' : Args (Param R) k.fields}
    {c : Circuit R} (hc : k.circuit args = .ok c) (h : args.EvaluatesTo E b k.fields args') :
    BothOk (Circuit.EvaluatesTo E b) (k.circuit args) (k.circuit args') := by
  cases k with
  | ms =>
    obtain ⟨qs, theta, _⟩ := args
    obtain ⟨qs', theta', _⟩ := args'
    obtain ⟨⟨⟩, htheta, -⟩ := h
    have hne : qs ≠ [] := by
      rintro rfl
      cases hc
    exact evaluates_flipRotation hne htheta
  | zz =>
    obtain ⟨qs, theta, _⟩ := args
    obtain ⟨qs', theta', _⟩ := args'
    obtain ⟨⟨⟩, htheta, -⟩ := h
    have hne : qs ≠ [] := by
      rintro rfl
      cases hc
    exact evaluates_parityRotation hne htheta
  | cnot =>
    obtain ⟨qs, _⟩ := args
    obtain ⟨qs', _⟩ := args'
    obtain ⟨⟨⟩, -⟩ := h
    have hne : qs ≠ [] := by
      rintro rfl
      cases hc
    exact evaluates_controlledNot hne
  | qft =>
    obtain ⟨qs, swaps, inverse, _⟩ := args
    obtain ⟨qs', swaps', inverse', _⟩ := args'
    obtain ⟨⟨⟩, ⟨⟩, ⟨⟩, -⟩ := h
    exact evaluates_fourierCircuit qs swaps inverse

/-- The circuit of a gate evaluates to the circuit of the evaluated gate. -/
theorem Operation.EvaluatesTo.circuit? {g g' : Operation (Param R)} {c : Circuit R}
    (hg : g.EvaluatesTo E b g') (hc : g.circuit? = some (.ok c)) :
    ∃ c', g'.circuit? = some (.ok c') ∧ c.EvaluatesTo E b c' := by
  obtain ⟨hargs⟩ := hg
  rename_i k args args'
  have hboth : ∃ m m', Operation.circuit? ⟨k, args⟩ = some m ∧
      Operation.circuit? ⟨k, args'⟩ = some m' ∧ BothOk (Circuit.EvaluatesTo E b) m m' := by
    cases k with
    | single => cases hc
    | two => cases hc
    | three k => exact ⟨_, _, rfl, rfl, k.circuit_evaluates hargs⟩
    | four k => exact ⟨_, _, rfl, rfl, k.circuit_evaluates hargs⟩
    | register k => exact ⟨_, _, rfl, rfl, k.circuit_evaluates (Option.some.inj hc) hargs⟩
    | call => cases hc
  obtain ⟨m, m', hm, hm', d, c', rfl, rfl, hdc⟩ := hboth
  obtain rfl : d = c := Except.ok.inj (Option.some.inj (hm.symm.trans hc))
  exact ⟨c', hm', hdc⟩

/-- Symbolic circuits in exact arithmetic. Where a composite gate with plain expressions has a
circuit and can be substituted, the circuit can be substituted too, and it becomes the circuit of
the substituted gate. -/
theorem symbolic_circuit_evaluates (E : ExactEvaluation R) (b : Bindings R)
    {g g' : Operation (Param R)} {c : Circuit R}
    (hplain : ∀ s, .expression s ∈ g.parameters → IsPlainText s.toList)
    (hg : g.substitute (E.evaluate b) = .ok g') (hc : g.circuit? = some (.ok c)) :
    ∃ c', c.substitute (E.evaluate b) = .ok c' ∧ g'.circuit? = some (.ok c') := by
  obtain ⟨c', hc', hcc⟩ := (Operation.EvaluatesTo.of_substitute hplain hg).circuit? hc
  exact ⟨c', hcc.substitute_eq_ok, hc'⟩

/-- A doubly controlled phase by the double of `t`, with the phase minus `t` on each qubit, and half
a turn for `t`. -/
theorem symbolic_circuit_of_half_turns :
    let g : Operation (Param NamedReal) := ⟨.three .phaseShiftedControlledControlledPhase, 4, 0, 2,
      .expression "t + t", .expression "-t", ()⟩
    let g' : Operation (Param NamedReal) := ⟨.three .phaseShiftedControlledControlledPhase, 4, 0, 2,
      .literal (Scalar.pi + Scalar.pi), .literal (-Scalar.pi), ()⟩
    ∃ c c', g.circuit? = some (.ok c) ∧
      c.substitute (NamedReal.evaluation.evaluate HalfTurn.bindings) = .ok c' ∧
      g'.circuit? = some (.ok c') := by
  intro g g'
  have hargs : Args.EvaluatesTo NamedReal.evaluation HalfTurn.bindings _ g.args g'.args :=
    ⟨rfl, rfl, rfl, HalfTurn.evaluates_double, HalfTurn.evaluates_opposite, trivial⟩
  have hg : g.EvaluatesTo NamedReal.evaluation HalfTurn.bindings g' := ⟨hargs⟩
  have hplain : ∀ s, .expression s ∈ g.parameters → IsPlainText s.toList := by
    intro s hs
    have hcases : s = "t + t" ∨ s = "-t" := by
      simpa [g, Operation.parameters, Operation.values, Args.values, FieldKind.tagged,
        FieldValue.parameterList] using hs
    exact HalfTurn.isPlainText (by simp [hcases])
  obtain ⟨c, -, hc, -⟩ := ThreeKind.circuit_evaluates .phaseShiftedControlledControlledPhase hargs
  have hcircuit : g.circuit? = some (.ok c) := congrArg some hc
  obtain ⟨c', hsubstitute, hc'⟩ := symbolic_circuit_evaluates NamedReal.evaluation _ hplain
    hg.substitute_eq_ok hcircuit
  exact ⟨c, c', hcircuit, hsubstitute, hc'⟩

/-- A comment in the angle hides the bracket that the circuit closes the angle with: the gate can be
substituted, and its circuit cannot. -/
theorem commented_circuit_without_value :
    let b : Bindings Float := ⟨[("t", 1.0)]⟩
    let g := doublyControlledPhase 0 1 2 (.expression "t # angle" : Param Float)
    g.substitute b.evaluate = .ok (doublyControlledPhase 0 1 2 (.literal 1.0)) ∧
      ∃ c, g.circuit? = some (.ok c) ∧
        c.substitute b.evaluate = .error (.noValue "(-((t # angle) / 4.0))" .malformed) := by
  intro b g
  have hangle : (Param.expression "t # angle").substitute b.evaluate = .ok (.literal 1.0) := by
    decide +kernel
  have hquarter : (Param.expression "t # angle").div (.literal (Scalar.whole 4 : Float)) =
      .ok (.expression "((t # angle) / 4.0)") := by
    decide +kernel
  have hfault : (Param.expression "((t # angle) / 4.0)").neg.substitute b.evaluate =
      .error (.noValue "(-((t # angle) / 4.0))" .malformed) := by
    decide +kernel
  refine ⟨?_, substitute_phaseLadder_eq_error _ _ 0 1 2 hquarter hfault⟩
  rw [substitute_doublyControlledPhase, hangle]
  rfl

end QuantumGates
