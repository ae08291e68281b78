-- Gates with their parameters evaluated. A matrix reads a parameter only through its value, so a
-- gate has the matrix of the evaluated gate. The rotation around an axis in space is the exception:
-- it reads its canonical values, which are longer expressions.
import QuantumGates.Gate.Unitary
import QuantumGates.Proofs.Gate.Fields

namespace QuantumGates

/-! ## Parameters with the same values -/

section

variable {R : Type} [Scalar R] {value : Param R → Except (Fault R) R}

theorem canonicalMatrix_congr {ar ai br bi phase ar' ai' br' bi' phase' : Param R}
    (har : value ar = value ar') (hai : value ai = value ai') (hbr : value br = value br')
    (hbi : value bi = value bi') (hphase : value phase = value phase') (tolerance : R) :
    canonicalMatrix value tolerance (.ok ⟨ar, ai, br, bi, phase⟩) =
      canonicalMatrix value tolerance (.ok ⟨ar', ai', br', bi', phase'⟩) := by
  have hvalues : Canonical.mapM value ⟨ar, ai, br, bi, phase⟩ =
      Canonical.mapM value ⟨ar', ai', br', bi', phase'⟩ := by
    simp only [Canonical.mapM, har, hai, hbr, hbi, hphase]
  exact congrArg (· >>= fun c => c.matrix tolerance) hvalues

theorem SingleKind.matrix_congr {k : SingleKind} {args args' : Args (Param R) k.fields}
    (h : args.Related (fun p p' => value p = value p') k.fields args')
    (hk : k ≠ .rotateSpherical) (tolerance : R) :
    k.matrix value tolerance args = k.matrix value tolerance args' := by
  cases k with
  | rotateSpherical => exact absurd rfl hk
  | general =>
    obtain ⟨-, hre, him, hre', him', hphase, -⟩ := h
    exact canonicalMatrix_congr hre him hre' him' hphase tolerance
  | identity | pauliX | pauliY | pauliZ | sqrtPauliX | invSqrtPauliX | sqrtPauliY
  | invSqrtPauliY | sGate | invSGate | tGate | invTGate | hadamard => rfl
  | rotateX | rotateY | rotateZ | phaseShiftState0 | phaseShiftState1 | gPi | gPi2 =>
    obtain ⟨-, (htheta : value _ = value _), -⟩ := h
    simp only [SingleKind.matrix, halfCosSin, phaseOf, htheta]
  | rotateXY =>
    obtain ⟨-, (htheta : value _ = value _), (hphi : value _ = value _), -⟩ := h
    simp only [SingleKind.matrix, halfCosSin, phaseOf, htheta, hphi]

theorem TwoKind.matrix_congr {k : TwoKind} {args args' : Args (Param R) k.fields}
    (h : args.Related (fun p p' => value p = value p') k.fields args') :
    k.matrix value args = k.matrix value args' := by
  cases k with
  | cnot | swap | iSwap | fSwap | sqrtISwap | invSqrtISwap | controlledPauliY
  | controlledPauliZ | molmerSorensenXX | echoCrossResonance => rfl
  | xy | controlledPhaseShift | variableMSXX | controlledRotateX | pmInteraction
  | phaseShiftedControlledZ =>
    obtain ⟨-, -, (htheta : value _ = value _), -⟩ := h
    simp only [TwoKind.matrix, halfCosSin, cosSinOf, phaseOf, htheta]
  | givens | givensLittleEndian | controlledRotateXY | bogoliubov | complexPMInteraction
  | phaseShiftedControlledPhase =>
    obtain ⟨-, -, (htheta : value _ = value _), (hphi : value _ = value _), -⟩ := h
    simp only [TwoKind.matrix, halfCosSin, cosSinOf, phaseOf, htheta, hphi]
  | spinInteraction | qsim | fsim =>
    obtain ⟨-, -, (hx : value _ = value _), (hy : value _ = value _), (hz : value _ = value _),
      -⟩ := h
    simp only [TwoKind.matrix, hx, hy, hz]

theorem ThreeKind.matrix_congr {k : ThreeKind} {args args' : Args (Param R) k.fields}
    (h : args.Related (fun p p' => value p = value p') k.fields args') :
    k.matrix value args = k.matrix value args' := by
  cases k with
  | controlledControlledPauliZ | toffoli | controlledSwap => rfl
  | controlledControlledPhaseShift | phaseShiftedControlledControlledZ =>
    obtain ⟨-, -, -, (htheta : value _ = value _), -⟩ := h
    simp only [ThreeKind.matrix, phaseOf, htheta]
  | phaseShiftedControlledControlledPhase =>
    obtain ⟨-, -, -, (htheta : value _ = value _), (hphi : value _ = value _), -⟩ := h
    simp only [ThreeKind.matrix, phaseOf, htheta, hphi]

theorem FourKind.matrix_congr {k : FourKind} {args args' : Args (Param R) k.fields}
    (h : args.Related (fun p p' => value p = value p') k.fields args') :
    k.matrix value args = k.matrix value args' := by
  cases k with
  | tripleControlledPauliX | tripleControlledPauliZ => rfl
  | tripleControlledPhaseShift =>
    obtain ⟨-, -, -, -, (htheta : value _ = value _), -⟩ := h
    simp only [FourKind.matrix, phaseOf, htheta]

theorem RegisterKind.matrix_congr {k : RegisterKind} {args args' : Args (Param R) k.fields}
    (h : args.Related (fun p p' => value p = value p') k.fields args') :
    k.matrix value args = k.matrix value args' := by
  cases k with
  | ms | zz =>
    obtain ⟨qs, theta, ⟨⟩⟩ := args
    obtain ⟨⟨⟩, (htheta : value _ = value _), -⟩ := h
    simp only [RegisterKind.matrix, htheta]
  | cnot =>
    obtain ⟨qs, ⟨⟩⟩ := args
    obtain ⟨⟨⟩, -⟩ := h
    rfl
  | qft =>
    obtain ⟨qs, swaps, inverse, ⟨⟩⟩ := args
    obtain ⟨⟨⟩, ⟨⟩, ⟨⟩, -⟩ := h
    rfl

/-- A matrix depends on the values of the parameters only, and on the number of qubits. -/
theorem matrix?_congr {k : Kind} {args args' : Args (Param R) k.fields}
    (h : args.Related (fun p p' => value p = value p') k.fields args')
    (hk : k ≠ .single .rotateSpherical) (tolerance : R) :
    Operation.matrix? value tolerance ⟨k, args⟩ = Operation.matrix? value tolerance ⟨k, args'⟩ := by
  cases k with
  | single k => exact congrArg some (SingleKind.matrix_congr h (fun hs => hk (congrArg _ hs)) _)
  | two k => exact congrArg some (TwoKind.matrix_congr h)
  | three k => exact congrArg some (ThreeKind.matrix_congr h)
  | four k => exact congrArg some (FourKind.matrix_congr h)
  | register k => exact congrArg some (RegisterKind.matrix_congr h)
  | call => rfl

end

/-! ## Gates with their parameters evaluated -/

section

variable {R : Type} {op op' : Operation (Param R)} {evaluate : String → Except (Fault R) R}

theorem Param.substitute_eq_ok_iff {p p' : Param R} :
    p.substitute evaluate = .ok p' ↔ ∃ x, p.value evaluate = .ok x ∧ p' = .literal x := by
  unfold Param.substitute
  cases p.value evaluate with
  | error fault => simp [Except.map]
  | ok x => simp [Except.map, eq_comm]

theorem Param.isLiteral_eq_false {p : Param R} {fault : Fault R}
    (h : p.value evaluate = .error fault) : p.isLiteral = false := by
  cases p with
  | literal x => cases h
  | expression s => rfl

/-- Where all expressions have values the gate can be evaluated. -/
theorem Operation.exists_substitute
    (h : ∀ s, .expression s ∈ op.parameters → ∃ x, evaluate s = .ok x) :
    ∃ op', op.substitute evaluate = .ok op' := by
  obtain ⟨args', hargs⟩ : ∃ args', op.args.Related (fun p p' => p.substitute evaluate = .ok p')
      op.kind.fields args' := by
    refine Args.exists_related fun p hp => ?_
    cases p with
    | literal x => exact ⟨.literal x, rfl⟩
    | expression s =>
      obtain ⟨x, hx⟩ := h s hp
      exact ⟨.literal x, Param.substitute_eq_ok_iff.mpr ⟨x, hx, rfl⟩⟩
  exact ⟨⟨op.kind, args'⟩, Operation.mapParameters_eq_ok_iff.mpr ⟨args', rfl, hargs⟩⟩

/-- The matrix is that of the gate with its parameters evaluated. -/
theorem Operation.matrix?_substitute [Scalar R] (h : op.substitute evaluate = .ok op')
    (hk : op.kind ≠ .single .rotateSpherical) (tolerance : R) :
    op.matrix? (Param.value evaluate) tolerance = op'.matrix? (Param.value evaluate) tolerance := by
  obtain ⟨args', rfl, hargs⟩ := mapParameters_eq_ok_iff.mp h
  refine matrix?_congr (hargs.imp fun p _ p' hp => ?_) hk tolerance
  obtain ⟨x, hx, rfl⟩ := Param.substitute_eq_ok_iff.mp hp
  exact hx

/-- An evaluated gate has no expressions. -/
theorem Operation.isParametrized_substitute (h : op.substitute evaluate = .ok op') :
    op'.isParametrized = false := by
  obtain ⟨args', rfl, hargs⟩ := mapParameters_eq_ok_iff.mp h
  unfold isParametrized
  rw [List.any_eq_false]
  intro p hp
  obtain ⟨q, hq⟩ := hargs.exists_of_mem hp
  obtain ⟨x, -, rfl⟩ := Param.substitute_eq_ok_iff.mp hq
  exact Bool.false_ne_true

end

end QuantumGates
