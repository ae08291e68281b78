-- The matrix of a gate with expressions as parameters. Most gates evaluate their parameters one by
-- one, and one without a value is reported. The rotation around an axis in space evaluates products
-- of sines and cosines, and a factor that is nought hides the other one with whatever it lacks.
import QuantumGates.Proofs.Gate.SphericalRotation
import QuantumGates.Proofs.Gate.Unitarity

namespace QuantumGates

/-! ## Expressions without variables -/

theorem Term.isFinite_of_finiteFloat? {t : Term} {x : Float} (h : t.finiteFloat? = some x) :
    x.isFinite = true := by
  unfold finiteFloat? at h
  split at h
  · cases h
  · dsimp only at h
    split at h
    · rename_i hfinite
      cases h
      exact (Bool.and_eq_true_iff.mp hfinite).2
    · cases h

theorem isFinite_of_evaluateText {lookup : String → Option Float} {s : String} {x : Float}
    (h : evaluateText lookup s = .ok x) : x.isFinite = true := by
  obtain ⟨f, -, h⟩ := bind_eq_ok h
  unfold Formula.value at h
  dsimp only at h
  split at h
  · cases h
  · split at h
    · rename_i y hy
      cases h
      exact Term.isFinite_of_finiteFloat? hy
    · cases h

/-- Only finite numbers are values. -/
theorem Bindings.isFinite_of_evaluate {b : Bindings Float} {s : String} {x : Float}
    (h : b.evaluate s = .ok x) : x.isFinite = true := by
  unfold evaluate at h
  split at h
  · rename_i y hy
    cases h
    exact isFinite_of_evaluateText hy
  · cases h

/-- An expression without a value is named in the fault. -/
theorem Bindings.eq_noValue_of_evaluate {b : Bindings Float} {s : String} {fault : Fault Float}
    (h : b.evaluate s = .error fault) : ∃ reason, fault = .noValue s reason := by
  unfold evaluate at h
  split at h
  · cases h
  · cases h
    exact ⟨_, rfl⟩

theorem Operation.exists_matrix? {R : Type} [Scalar R] {op : Operation (Param R)}
    (hk : op.kind ≠ .call) (value : Param R → Except (Fault R) R) (tolerance : R) :
    ∃ m, op.matrix? value tolerance = some m := by
  obtain ⟨k, args⟩ := op
  cases k with
  | call => exact absurd rfl hk
  | single => exact ⟨_, rfl⟩
  | two => exact ⟨_, rfl⟩
  | three => exact ⟨_, rfl⟩
  | four => exact ⟨_, rfl⟩
  | register => exact ⟨_, rfl⟩

theorem Param.isFinite_of_value {ps : List (Param Float)}
    (hfinite : ∀ x, .literal x ∈ ps → x.isFinite = true) :
    ∀ p ∈ ps, ∀ x, p.value evaluateClosed = .ok x → x.isFinite = true := by
  intro p hp x hx
  cases p with
  | literal y =>
    cases hx
    exact hfinite _ hp
  | expression s => exact Bindings.isFinite_of_evaluate hx

/-! ## The matrix of a gate with expressions -/

/-- Matrices of gates with expressions as parameters. In doubles every gate but the rotation around
an axis in space fails with the fault of a parameter if one has no value, and if all have values it
has the matrix of the gate with these values; only sums, magnitudes and norms can still be refused.
In real numbers there is always a matrix. The rotation around an axis in space evaluates its
canonical values instead. In exact arithmetic it fails for a parameter without a value too, unless
a number as a factor nought leaves the parameter out, and otherwise it has the matrix of the
rotation by the values. -/
theorem matrix_of_parameter_values {R : Type} [ExactScalar R] (S : StrictEvaluation R) :
    (∀ (op : Operation (Param Float)) (tolerance : Float), op.kind ≠ .call →
      op.kind ≠ .single .rotateSpherical → (∀ x, .literal x ∈ op.parameters → x.isFinite = true) →
      let m := op.matrix? (Param.value evaluateClosed) tolerance
      ((∃ s fault, .expression s ∈ op.parameters ∧ evaluateClosed s = .error fault) →
        ∃ s reason, .expression s ∈ op.parameters ∧
          evaluateClosed s = .error (.noValue s reason) ∧ m = some (.error (.noValue s reason))) ∧
      ((∀ s, .expression s ∈ op.parameters → ∃ x, evaluateClosed s = .ok x) →
        ∃ op', op.substitute evaluateClosed = .ok op' ∧
          m = op'.matrix? (Param.value evaluateClosed) tolerance ∧
          (∀ s reason, m ≠ some (.error (.noValue s reason))) ∧
          (op.kind.isTotal = true → (op.kind = .register .cnot → op.qubits ≠ []) →
            ∃ u, m = some (.ok u)))) ∧
    (∀ (q : ℕ) (theta polar azimuth : Param Float) (tolerance : Float),
      (∀ x, .literal x ∈ [theta, polar, azimuth] → x.isFinite = true) →
      ∃ c, SingleKind.canonical .rotateSpherical (q, theta, polar, azimuth, ()) = .ok c ∧
        ((∃ s fault, .expression s ∈ c.toList ∧ evaluateClosed s = .error fault) ↔
          ∃ s reason, Operation.matrix? (Param.value evaluateClosed) tolerance
            ⟨.single .rotateSpherical, q, theta, polar, azimuth, ()⟩ =
              some (.error (.noValue s reason)))) ∧
    (∀ (op : Operation (Param ℝ)) (evaluate : String → Except (Fault ℝ) ℝ) (tolerance : ℝ),
      0 ≤ tolerance → op.kind ≠ .call → op.kind ≠ .single .rotateSpherical →
      (op.kind = .register .cnot → op.qubits ≠ []) →
      (∀ s, .expression s ∈ op.parameters → ∃ x, evaluate s = .ok x) →
        ∃ op', op.substitute evaluate = .ok op' ∧
          op.matrix? (Param.value evaluate) tolerance =
            op'.matrix? (Param.value evaluate) tolerance ∧
          (op.kind ≠ .single .general →
            ∃ u, op.matrix? (Param.value evaluate) tolerance = some (.ok u))) ∧
    ∀ (b : Bindings R) (q : ℕ) (theta polar azimuth : Param R) (tolerance : R),
      (∀ s, .expression s ∈ [theta, polar, azimuth] → IsPlainExpression s) →
      let op : Operation (Param R) := ⟨.single .rotateSpherical, q, theta, polar, azimuth, ()⟩
      let value := Param.value (S.evaluate b)
      let turns := ∀ x, theta = .literal x → Real.sin (ExactScalar.real x / 2) ≠ 0
      let tilts := ∀ x, polar = .literal x → Real.sin (ExactScalar.real x) ≠ 0
      ((∃ fault, value theta = .error fault) ∨ (turns ∧ ∃ fault, value polar = .error fault) ∨
          (turns ∧ tilts ∧ ∃ fault, value azimuth = .error fault) →
        ∃ s reason, op.matrix? value tolerance = some (.error (.noValue s reason))) ∧
      ∀ op', op.substitute (S.evaluate b) = .ok op' →
        op.matrix? value tolerance = op'.matrix? value tolerance := by
  refine ⟨?_, ?_, ?_, ?_⟩
  · intro op tolerance hcall hspherical hfinite m
    obtain ⟨n, hn⟩ := Operation.exists_matrix? hcall (Param.value evaluateClosed) tolerance
    obtain ⟨hfails, houtcome⟩ :=
      (Operation.answers_matrix hspherical hn (Param.isFinite_of_value hfinite)).of_evaluate
        fun _ _ => Bindings.eq_noValue_of_evaluate
    have hm : m = some n := hn
    refine ⟨fun hlack => ?_, fun hall => ?_⟩
    · obtain ⟨s, reason, hs, hfault, hnm⟩ := hfails hlack
      exact ⟨s, reason, hs, hfault, by rw [hm, hnm]⟩
    · obtain ⟨op', hop'⟩ := Operation.exists_substitute hall
      have ho := houtcome hall
      refine ⟨op', hop', Operation.matrix?_substitute hop' hspherical tolerance,
        fun s reason hs => ho.noFault s reason (Option.some.inj (hm.symm.trans hs)),
        fun htotal hne => ?_⟩
      obtain ⟨u, hu⟩ := ho.exists_ok ⟨htotal, hne⟩
      exact ⟨u, by rw [hm, hu]⟩
  · intro q theta polar azimuth tolerance hfinite
    obtain ⟨c, hc⟩ := SingleKind.exists_canonical_rotateSpherical (q := q) hfinite
    have hm : Operation.matrix? (Param.value evaluateClosed) tolerance
        ⟨.single .rotateSpherical, q, theta, polar, azimuth, ()⟩ =
          some (canonicalMatrix (Param.value evaluateClosed) tolerance (.ok c)) := by
      rw [← hc]
      rfl
    have hanswers : Answers (Param.value evaluateClosed) (Outcome False) c.toList
        (canonicalMatrix (Param.value evaluateClosed) tolerance (.ok c)) :=
      answers_canonicalMatrix c tolerance
    rw [hm]
    simp only [Option.some.injEq]
    exact ⟨c, hc, hanswers.noValue_iff fun _ _ => Bindings.eq_noValue_of_evaluate⟩
  · intro op evaluate tolerance ht hcall hspherical hne hall
    obtain ⟨op', hop'⟩ := Operation.exists_substitute hall
    have hsame := Operation.matrix?_substitute hop' hspherical tolerance
    refine ⟨op', hop', hsame, fun hgeneral => ?_⟩
    obtain ⟨args', rfl, hargs⟩ := Operation.mapParameters_eq_ok_iff.mp hop'
    have hqubits : Operation.qubits ⟨op.kind, args'⟩ = op.qubits := hargs.qubits_eq.symm
    obtain ⟨u, hu, -⟩ := Operation.exists_isUnitary_matrix? ⟨op.kind, args'⟩ hcall
      (Operation.isParametrized_substitute hop') (fun h => hqubits ▸ hne h) evaluate ht hgeneral
    exact ⟨u, hsame.trans hu⟩
  · intro b q theta polar azimuth tolerance hplain op value turns tilts
    refine ⟨fun hlack => ?_, fun op' hop' => ?_⟩
    · obtain ⟨s, reason, hm⟩ := SingleKind.matrix_rotateSpherical_eq_error hplain q tolerance hlack
      exact ⟨s, reason, congrArg some hm⟩
    · have hevaluates : Operation.EvaluatesTo S.toExactEvaluation b
          ⟨.single .rotateSpherical, q, theta, polar, azimuth, ()⟩ op' :=
        .of_substitute (fun s hs => (hplain s hs).1) hop'
      cases hevaluates with
      | mk hargs => exact congrArg some (SingleKind.matrix_rotateSpherical_congr hargs tolerance)

theorem exists_of_isOk {F A : Type} {m : Except F A} (h : m.isOk = true) : ∃ a, m = .ok a := by
  cases m with
  | error e => cases h
  | ok a => exact ⟨a, rfl⟩

theorem evaluateClosed_x : evaluateClosed "x" = .error (.noValue "x" (.unbound ["x"])) := by
  decide +kernel

/-- Rotations by expressions of half a turn, with and without the values of the variables. -/
theorem matrix_of_half_turns :
    let turned (phi : String) : Operation (Param Float) :=
      ⟨.two .controlledRotateXY, 0, 1, .literal 0.5, .expression phi, ()⟩
    let axis : Operation (Param NamedReal) :=
      ⟨.single .rotateSpherical, 0, .expression "t", .expression "t + t", .expression "-t", ()⟩
    let value b := Param.value (NamedReal.strictEvaluation.evaluate b)
    (∃ s reason, (turned "x").matrix? (Param.value evaluateClosed) 0 =
      some (.error (.noValue s reason))) ∧
    (∃ op' u, (turned "pi").substitute evaluateClosed = .ok op' ∧
      (turned "pi").matrix? (Param.value evaluateClosed) 0 = some (.ok u) ∧
      op'.matrix? (Param.value evaluateClosed) 0 = some (.ok u)) ∧
    (∃ s reason, axis.matrix? (value .empty) 0 = some (.error (.noValue s reason))) ∧
    ∃ op', axis.substitute (NamedReal.strictEvaluation.evaluate HalfTurn.bindings) = .ok op' ∧
      axis.matrix? (value HalfTurn.bindings) 0 = op'.matrix? (value HalfTurn.bindings) 0 := by
  intro turned axis value
  have hfinite : ∀ phi x, .literal x ∈ (turned phi).parameters → x.isFinite = true := by
    intro phi x hx
    have hhalf : (0.5 : Float).isFinite = true := by decide +kernel
    rcases List.mem_cons.mp hx with hx | hx
    · cases hx
      exact hhalf
    · cases List.mem_singleton.mp hx
  have hpi : ∃ x, evaluateClosed "pi" = .ok x := exists_of_isOk (by decide +kernel)
  have hplain : ∀ s, .expression s ∈ [(.expression "t" : Param NamedReal), .expression "t + t",
      .expression "-t"] → IsPlainExpression s := by
    intro s hs
    simp only [List.mem_cons, Param.expression.injEq, List.not_mem_nil, or_false] at hs
    rcases hs with rfl | rfl | rfl
    · exact HalfTurn.evaluates_t.isPlainExpression
    · exact HalfTurn.evaluates_double.isPlainExpression
    · exact HalfTurn.evaluates_opposite.isPlainExpression
  have haxis : axis.EvaluatesTo NamedReal.evaluation HalfTurn.bindings
      ⟨.single .rotateSpherical, 0, .literal Scalar.pi, .literal (Scalar.pi + Scalar.pi),
        .literal (-Scalar.pi), ()⟩ :=
    ⟨⟨rfl, HalfTurn.evaluates_t, HalfTurn.evaluates_double, HalfTurn.evaluates_opposite, trivial⟩⟩
  refine ⟨?_, ?_, ?_, ?_⟩
  · obtain ⟨s, reason, -, -, hm⟩ :=
      ((matrix_of_parameter_values NamedReal.strictEvaluation).1 (turned "x") 0 (by decide)
        (by decide) (hfinite "x")).1 ⟨"x", _, .tail _ (.head _), evaluateClosed_x⟩
    exact ⟨s, reason, hm⟩
  · obtain ⟨op', hop', hsame, -, hexists⟩ :=
      ((matrix_of_parameter_values NamedReal.strictEvaluation).1 (turned "pi") 0 (by decide)
        (by decide) (hfinite "pi")).2 fun s hs => by
          rcases List.mem_cons.mp hs with hs | hs
          · cases hs
          · cases List.mem_singleton.mp hs
            exact hpi
    obtain ⟨u, hu⟩ := hexists (by decide) (by decide)
    exact ⟨op', u, hop', hu, hsame.symm.trans hu⟩
  · have hlack : Param.value (NamedReal.strictEvaluation.evaluate .empty) (.expression "t") =
        .error (.noValue "t" (.unbound ["t"])) := by
      have hread : Formula.readWithin none "t" = .ok (.var "t") := by decide +kernel
      show NamedReal.strictEvaluation.evaluate .empty "t" = _
      unfold ExactEvaluation.evaluate
      rw [hread]
      rfl
    exact ((matrix_of_parameter_values NamedReal.strictEvaluation).2.2.2 .empty 0 (.expression "t")
      (.expression "t + t") (.expression "-t") 0 hplain).1 (.inl ⟨_, hlack⟩)
  · exact ⟨_, haxis.substitute_eq_ok,
      ((matrix_of_parameter_values NamedReal.strictEvaluation).2.2.2 HalfTurn.bindings 0
        (.expression "t") (.expression "t + t") (.expression "-t") 0 hplain).2 _
          haxis.substitute_eq_ok⟩

/-- A rotation around the third axis has a matrix without a value of its azimuth, which a rotation
around an axis in the plane needs. -/
theorem matrix_without_azimuth :
    let value := Param.value evaluateClosed
    (∃ u, Operation.matrix? value 1e-10 ⟨.single .rotateSpherical, 0, .literal 1.0, .literal 0.0,
      .expression "x", ()⟩ = some (.ok u)) ∧
    Operation.matrix? value 1e-10 ⟨.single .rotateXY, 0, .literal 1.0, .expression "x", ()⟩ =
      some (.error (.noValue "x" (.unbound ["x"]))) := by
  intro value
  constructor
  · have hok : (SingleKind.matrix value 1e-10 .rotateSpherical
        (0, .literal 1.0, .literal 0.0, .expression "x", ())).isOk = true := by
      decide +kernel
    obtain ⟨u, hu⟩ := exists_of_isOk hok
    exact ⟨u, congrArg some hu⟩
  · have hphase : phaseOf value (.expression "x") = .error (.noValue "x" (.unbound ["x"])) := by
      show (evaluateClosed "x").map Cplx.cis = _
      rw [evaluateClosed_x]
      rfl
    obtain ⟨cs, hcs⟩ : ∃ cs, halfCosSin value (.literal 1.0) = .ok cs :=
      exists_of_isOk (by decide +kernel)
    show some (halfCosSin value (.literal 1.0) >>= _) = _
    rw [hcs]
    show some (phaseOf value (.expression "x") >>= _) = _
    rw [hphase]
    rfl

end QuantumGates
