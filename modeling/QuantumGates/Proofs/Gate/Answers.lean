-- What the matrix of a gate does with its parameters in doubles. It fails with the fault of a
-- parameter if one has no value. Where all have values, no other fault says that a value is
-- missing, and there is a matrix unless a sum, a magnitude or a norm of parameters comes in.
import QuantumGates.Bindings
import QuantumGates.Gate.Unitary
import QuantumGates.Proofs.Exact.RealValues
import QuantumGates.Proofs.Number.HalvedDouble

namespace QuantumGates

/-! ## Answers -/

/-- A computation that reads parameters fails with the fault of one of them, or all of them have
values and the result is as described. -/
inductive Answers {F P X A : Type} (value : P → Except F X) (good : Except F A → Prop)
    (ps : List P) (m : Except F A) : Prop
  | fault {p : P} {e : F} : p ∈ ps → value p = .error e → m = .error e → Answers value good ps m
  | result : (∀ p ∈ ps, ∃ x, value p = .ok x) → good m → Answers value good ps m

/-- A result that does not complain of a missing value, and one that exists if `total`. -/
structure Outcome {R A : Type} (total : Prop) (m : Except (Fault R) A) : Prop where
  noFault : ∀ s reason, m ≠ .error (.noValue s reason)
  exists_ok : total → ∃ a, m = .ok a

section

variable {R A B : Type} {t : Prop} {m : Except (Fault R) A} {f : A → Except (Fault R) B}

theorem Outcome.ok (a : A) : Outcome t (.ok a : Except (Fault R) A) := ⟨nofun, fun _ => ⟨a, rfl⟩⟩

theorem Outcome.error {e : Fault R} (he : ∀ s reason, e ≠ .noValue s reason) (ht : ¬ t) :
    Outcome t (.error e : Except (Fault R) A) :=
  ⟨fun s reason h => he s reason (Except.error.inj h), fun h => absurd h ht⟩

theorem Outcome.bind (h : Outcome t m) (hf : ∀ a, Outcome t (f a)) : Outcome t (m >>= f) := by
  cases m with
  | error e => exact ⟨fun s reason he => h.noFault s reason (congrArg _ (Except.error.inj he)),
      fun ht => nomatch h.exists_ok ht⟩
  | ok a => exact hf a

theorem Outcome.mono {u : Prop} (h : Outcome t m) (hut : u → t) : Outcome u m :=
  ⟨h.noFault, fun hu => h.exists_ok (hut hu)⟩

theorem Outcome.of_true (h : Outcome True m) : Outcome t m := h.mono fun _ => trivial

end

namespace Answers

variable {R P X A B : Type} {value : P → Except (Fault R) X} {ps qs : List P} {t : Prop}
  {m : Except (Fault R) A} {f : A → Except (Fault R) B}

theorem rest (h : Outcome t m) : Answers value (Outcome t) [] m := .result (by simp) h

theorem ok (a : A) : Answers value (Outcome t) [] (.ok a) := rest (.ok a)

theorem mono {u : Prop} (h : Answers value (Outcome t) ps m) (hut : u → t) :
    Answers value (Outcome u) ps m := by
  cases h with
  | fault hp he hm => exact .fault hp he hm
  | result hps hm => exact .result hps (hm.mono hut)

/-- Steps after a result that read more parameters. -/
theorem bind_ok (h : Answers value (Outcome True) ps m)
    (hf : ∀ a, m = .ok a → Answers value (Outcome t) qs (f a)) :
    Answers value (Outcome t) (ps ++ qs) (m >>= f) := by
  cases h with
  | fault hp he hm => exact .fault (List.mem_append_left qs hp) he (by rw [hm]; rfl)
  | result hps hm =>
    obtain ⟨a, rfl⟩ := hm.exists_ok trivial
    cases hf a rfl with
    | fault hq he hfa => exact .fault (List.mem_append_right ps hq) he hfa
    | result hqs hfa =>
      exact .result (fun p hp => (List.mem_append.mp hp).elim (hps p) (hqs p)) hfa

theorem bind (h : Answers value (Outcome True) ps m)
    (hf : ∀ a, Answers value (Outcome t) qs (f a)) :
    Answers value (Outcome t) (ps ++ qs) (m >>= f) := h.bind_ok fun a _ => hf a

/-- The order in which parameters are read. -/
theorem of_perm (h : Answers value (Outcome t) ps m) (hperm : ps.Perm qs) :
    Answers value (Outcome t) qs m := by
  cases h with
  | fault hp he hm => exact .fault (hperm.mem_iff.mp hp) he hm
  | result hps hm => exact .result (fun p hp => hps p (hperm.mem_iff.mpr hp)) hm

theorem read (p : P) : Answers value (Outcome t) [p] (value p) := by
  cases h : value p with
  | error e => exact .fault (List.mem_singleton_self p) h rfl
  | ok x => exact .result (by simpa using ⟨x, h⟩) (.ok x)

/-- Values that are read to compute one number more. -/
theorem map {C : Type} (h : Answers value (Outcome True) ps m) (g : A → C) :
    Answers value (Outcome t) ps (m.map g) := by
  cases h with
  | fault hp he hm => exact .fault hp he (by rw [hm]; rfl)
  | result hps hm =>
    obtain ⟨a, rfl⟩ := hm.exists_ok trivial
    exact .result hps (.ok (g a))

/-- What an answer says of parameters that are expressions. -/
theorem of_evaluate {evaluate : String → Except (Fault R) R} {ps : List (Param R)}
    (h : Answers (Param.value evaluate) (Outcome t) ps m)
    (hfault : ∀ s fault, evaluate s = .error fault → ∃ reason, fault = .noValue s reason) :
    ((∃ s fault, .expression s ∈ ps ∧ evaluate s = .error fault) →
      ∃ s reason, .expression s ∈ ps ∧ evaluate s = .error (.noValue s reason) ∧
        m = .error (.noValue s reason)) ∧
    ((∀ s, .expression s ∈ ps → ∃ x, evaluate s = .ok x) → Outcome t m) := by
  cases h with
  | @fault p e hp he hm =>
    cases p with
    | literal x => cases he
    | expression s =>
      obtain ⟨reason, rfl⟩ := hfault s e he
      refine ⟨fun _ => ⟨s, reason, hp, he, hm⟩, fun hall => ?_⟩
      obtain ⟨x, hx⟩ := hall s hp
      cases he.symm.trans hx
  | result hps hm =>
    refine ⟨?_, fun _ => hm⟩
    rintro ⟨s, fault, hs, hfault⟩
    obtain ⟨x, hx⟩ := hps _ hs
    cases hfault.symm.trans hx

theorem noValue_iff {evaluate : String → Except (Fault R) R} {ps : List (Param R)}
    (h : Answers (Param.value evaluate) (Outcome t) ps m)
    (hfault : ∀ s fault, evaluate s = .error fault → ∃ reason, fault = .noValue s reason) :
    (∃ s fault, .expression s ∈ ps ∧ evaluate s = .error fault) ↔
      ∃ s reason, m = .error (.noValue s reason) := by
  obtain ⟨hfails, houtcome⟩ := h.of_evaluate hfault
  constructor
  · intro hlack
    obtain ⟨s, reason, -, -, hm⟩ := hfails hlack
    exact ⟨s, reason, hm⟩
  · rintro ⟨s, reason, hm⟩
    by_contra hnone
    have hall : ∀ s, .expression s ∈ ps → ∃ x, evaluate s = .ok x := by
      intro s hs
      cases hvalue : evaluate s with
      | error fault => exact absurd ⟨s, fault, hs, hvalue⟩ hnone
      | ok x => exact ⟨x, rfl⟩
    exact (houtcome hall).noFault s reason hm

end Answers

/-! ## Numbers -/

theorem outcome_periodic (f : Float → Float) (x : Float) : Outcome False (Double.periodic f x) := by
  unfold Double.periodic
  split
  · exact .error nofun not_false
  · exact .ok _

theorem outcome_periodic_of_isFinite {x : Float} (f : Float → Float) (h : x.isFinite = true) :
    Outcome True (Double.periodic f x) := by
  rw [isFinite_eq, Bool.and_eq_true, Bool.not_eq_true', Bool.not_eq_true'] at h
  unfold Double.periodic
  rw [h.2]
  exact .ok _

theorem outcome_inRange (finite : Bool) (y : Float) : Outcome False (Double.inRange finite y) := by
  unfold Double.inRange
  split
  · exact .error nofun not_false
  · exact .ok _

theorem outcome_hypot (x y : Float) : Outcome False (Double.hypot? x y) := by
  unfold Double.hypot?
  split
  · exact .ok _
  · split
    · exact .ok _
    · exact outcome_inRange _ _

theorem outcome_sqrt (x : Float) : Outcome False (Double.sqrt? x) := by
  unfold Double.sqrt?
  split
  · exact .error nofun not_false
  · exact .ok _

theorem outcome_invRootTwo : Outcome True (invRootTwo : Except (Fault Float) Float) := by
  have hpositive : ¬ Float.ofNat 2 < 0.0 := by decide
  have hroot : (Scalar.sqrt? (Scalar.whole 2) : Except (Fault Float) Float) =
      .ok (Float.ofNat 2).sqrt := by
    show Double.sqrt? (Float.ofNat 2) = _
    unfold Double.sqrt?
    rw [if_neg hpositive]
  unfold invRootTwo
  rw [hroot]
  exact .ok _

/-! ## Parts of a matrix -/

section

variable {value : Param Float → Except (Fault Float) Float} {t : Prop} {p : Param Float}

theorem answers_cosSinOf (hp : ∀ x, value p = .ok x → x.isFinite = true) :
    Answers value (Outcome t) [p] (cosSinOf value p) := by
  unfold cosSinOf
  cases h : value p with
  | error e => exact .fault (List.mem_singleton_self p) h rfl
  | ok x =>
    have hcos := outcome_periodic_of_isFinite Double.cos (hp x h)
    have hsin := outcome_periodic_of_isFinite Double.sin (hp x h)
    exact .result (by simpa using ⟨x, h⟩) (hcos.bind fun _ => hsin.bind fun _ => .ok _).of_true

theorem answers_halfCosSin (hp : ∀ x, value p = .ok x → x.isFinite = true) :
    Answers value (Outcome t) [p] (halfCosSin value p) := by
  unfold halfCosSin
  cases h : value p with
  | error e => exact .fault (List.mem_singleton_self p) h rfl
  | ok x =>
    have hhalf : (x / Float.ofNat 2).isFinite = true := Double.isFinite_half (hp x h)
    have hcos := outcome_periodic_of_isFinite Double.cos hhalf
    have hsin := outcome_periodic_of_isFinite Double.sin hhalf
    exact .result (by simpa using ⟨x, h⟩) (hcos.bind fun _ => hsin.bind fun _ => .ok _).of_true

theorem answers_phaseOf (p : Param Float) : Answers value (Outcome t) [p] (phaseOf value p) :=
  (Answers.read p).map Cplx.cis

theorem outcome_interaction (x y z : Float) : Outcome False (interaction x y z) :=
  (outcome_periodic _ _).bind fun _ => (outcome_periodic _ _).bind fun _ =>
    (outcome_periodic _ _).bind fun _ => (outcome_periodic _ _).bind fun _ => .ok _

theorem outcome_couplingRotation (re im : Float) : Outcome False (couplingRotation re im) :=
  (outcome_hypot re im).bind fun _ => (outcome_periodic _ _).bind fun _ =>
    (outcome_periodic _ _).bind fun _ => .ok _

theorem outcome_fourierMatrix (n : ℕ) (swaps : Bool) :
    Outcome False (fourierMatrix n swaps : Except (Fault Float) (CMat Float)) :=
  (outcome_sqrt _).bind fun _ => .ok _

theorem outcome_canonical (c : Canonical Float) (tolerance : Float) :
    Outcome False (c.matrix tolerance) := by
  refine (outcome_inRange _ _).bind fun _ => (outcome_inRange _ _).bind fun _ =>
    (outcome_inRange _ _).bind fun _ => (outcome_inRange _ _).bind fun _ => ?_
  dsimp only
  split
  · exact .error nofun not_false
  · exact .ok _

theorem answers_mapM {R X P : Type} {value : P → Except (Fault R) X} {t : Prop}
    (c : Canonical P) : Answers value (Outcome t) c.toList (c.mapM value) :=
  (Answers.read c.alphaRe).bind fun _ => (Answers.read c.alphaIm).bind fun _ =>
    (Answers.read c.betaRe).bind fun _ => (Answers.read c.betaIm).bind fun _ =>
      (Answers.read c.phase).bind fun _ => .ok _

theorem answers_canonicalMatrix (c : Canonical (Param Float)) (tolerance : Float) :
    Answers value (Outcome False) c.toList (canonicalMatrix value tolerance (.ok c)) := by
  have h : Answers value (Outcome False) (c.toList ++ [])
      (c.mapM value >>= fun c => c.matrix tolerance) :=
    (answers_mapM c).bind fun c => .rest (outcome_canonical c tolerance)
  rwa [List.append_nil] at h

/-! ## Gates of each size -/

end

/-- Whether the matrix of a kind takes no sum, magnitude or norm of parameters and no root of a
size, so that no number in it is too large or undefined. -/
def Kind.isTotal : Kind → Bool
  | single k => k != .general && k != .rotateSpherical
  | two k => !([.spinInteraction, .qsim, .bogoliubov, .complexPMInteraction].contains k)
  | three _ | four _ => true
  | register k => k != .qft
  | call => false

section

variable {value : Param Float → Except (Fault Float) Float} {t : Prop}

/-- The canonical values of the general gate are its parameters. -/
theorem SingleKind.answers_matrix (k : SingleKind) (args : Args (Param Float) k.fields)
    (hk : k ≠ .rotateSpherical) (tolerance : Float)
    (hfinite : ∀ p ∈ Operation.parameters ⟨.single k, args⟩, ∀ x, value p = .ok x →
      x.isFinite = true) :
    Answers value (Outcome (Kind.isTotal (.single k) = true))
      (Operation.parameters ⟨.single k, args⟩) (k.matrix value tolerance args) := by
  cases k with
  | general =>
    obtain ⟨q, ar, ai, br, bi, phase, ⟨⟩⟩ := args
    have hfalse : (Kind.isTotal (.single .general) = true) = False := by decide
    rw [hfalse]
    exact answers_canonicalMatrix ⟨ar, ai, br, bi, phase⟩ tolerance
  | rotateSpherical => exact absurd rfl hk
  | identity | pauliX | pauliY | pauliZ | sqrtPauliX | invSqrtPauliX | sqrtPauliY
  | invSqrtPauliY | sGate | invSGate | tGate | invTGate => exact .ok _
  | hadamard => exact .rest (outcome_invRootTwo.bind fun _ => .ok _).of_true
  | rotateX | rotateY =>
    obtain ⟨q, theta, ⟨⟩⟩ := args
    exact (answers_halfCosSin (hfinite theta (.head _))).bind fun _ => .ok _
  | rotateZ =>
    obtain ⟨q, theta, ⟨⟩⟩ := args
    exact (Answers.read theta).bind fun _ => .ok _
  | rotateXY =>
    obtain ⟨q, theta, phi, ⟨⟩⟩ := args
    exact (answers_halfCosSin (hfinite theta (.head _))).bind fun _ =>
      (answers_phaseOf phi).bind fun _ => .ok _
  | phaseShiftState0 | phaseShiftState1 | gPi =>
    obtain ⟨q, theta, ⟨⟩⟩ := args
    exact (answers_phaseOf theta).bind fun _ => .ok _
  | gPi2 =>
    obtain ⟨q, theta, ⟨⟩⟩ := args
    exact (answers_phaseOf theta).bind fun _ =>
      .rest (outcome_invRootTwo.bind fun _ => .ok _).of_true

theorem TwoKind.answers_matrix (k : TwoKind) (args : Args (Param Float) k.fields)
    (hfinite : ∀ p ∈ Operation.parameters ⟨.two k, args⟩, ∀ x, value p = .ok x →
      x.isFinite = true) :
    Answers value (Outcome (Kind.isTotal (.two k) = true))
      (Operation.parameters ⟨.two k, args⟩) (k.matrix value args) := by
  cases k with
  | cnot | swap | iSwap | fSwap | controlledPauliY | controlledPauliZ => exact .ok _
  | sqrtISwap | echoCrossResonance => exact .rest (outcome_invRootTwo.bind fun _ => .ok _).of_true
  | invSqrtISwap | molmerSorensenXX =>
    exact .rest (outcome_invRootTwo.bind fun _ => outcome_invRootTwo.bind fun _ => .ok _).of_true
  | xy | variableMSXX | controlledRotateX =>
    obtain ⟨c, t, theta, ⟨⟩⟩ := args
    exact (answers_halfCosSin (hfinite theta (.head _))).bind fun _ => .ok _
  | controlledPhaseShift | phaseShiftedControlledZ =>
    obtain ⟨c, t, theta, ⟨⟩⟩ := args
    exact (answers_phaseOf theta).bind fun _ => .ok _
  | givens | givensLittleEndian =>
    obtain ⟨c, t, theta, phi, ⟨⟩⟩ := args
    exact (answers_cosSinOf (hfinite theta (.head _))).bind fun _ =>
      (answers_phaseOf phi).bind fun _ => .ok _
  | controlledRotateXY =>
    obtain ⟨c, t, theta, phi, ⟨⟩⟩ := args
    exact (answers_halfCosSin (hfinite theta (.head _))).bind fun _ =>
      (answers_phaseOf phi).bind fun _ => .ok _
  | spinInteraction | qsim =>
    obtain ⟨c, t, x, y, z, ⟨⟩⟩ := args
    exact (Answers.read x).bind fun _ => (Answers.read y).bind fun _ =>
      (Answers.read z).bind fun _ =>
        .rest (((outcome_interaction _ _ _).bind fun _ => .ok _).mono (by decide))
  | fsim =>
    obtain ⟨c, t, u, v, delta, ⟨⟩⟩ := args
    refine (Answers.read u).bind_ok fun x hx => (Answers.read v).bind fun _ =>
      (Answers.read delta).bind_ok fun y hy => ?_
    have hxfinite := hfinite u (.head _) x hx
    have hyfinite := hfinite delta (.tail _ (.tail _ (.head _))) y hy
    exact .rest ((outcome_periodic_of_isFinite Double.cos hyfinite).bind fun _ =>
      (outcome_periodic_of_isFinite Double.sin hyfinite).bind fun _ =>
        (outcome_periodic_of_isFinite Double.sin hxfinite).bind fun _ =>
          (outcome_periodic_of_isFinite Double.cos hxfinite).bind fun _ => .ok _).of_true
  | bogoliubov | complexPMInteraction =>
    obtain ⟨c, t, re, im, ⟨⟩⟩ := args
    exact (Answers.read re).bind fun _ => (Answers.read im).bind fun _ =>
      .rest (((outcome_couplingRotation _ _).bind fun _ => .ok _).mono (by decide))
  | pmInteraction =>
    obtain ⟨c, t, theta, ⟨⟩⟩ := args
    exact (answers_cosSinOf (hfinite theta (.head _))).bind fun _ => .ok _
  | phaseShiftedControlledPhase =>
    obtain ⟨c, t, theta, phi, ⟨⟩⟩ := args
    refine (?_ : Answers value _ [phi, theta] _).of_perm (.swap theta phi [])
    exact (Answers.read phi).bind fun _ => (Answers.read theta).bind fun _ => .ok _

theorem ThreeKind.answers_matrix (k : ThreeKind) (args : Args (Param Float) k.fields) :
    Answers value (Outcome True) (Operation.parameters ⟨.three k, args⟩) (k.matrix value args) := by
  cases k with
  | controlledControlledPauliZ | toffoli | controlledSwap => exact .ok _
  | controlledControlledPhaseShift =>
    obtain ⟨q, r, t, theta, ⟨⟩⟩ := args
    exact (answers_phaseOf theta).bind fun _ => .ok _
  | phaseShiftedControlledControlledZ =>
    obtain ⟨q, r, t, phi, ⟨⟩⟩ := args
    exact (Answers.read phi).bind fun _ => .ok _
  | phaseShiftedControlledControlledPhase =>
    obtain ⟨q, r, t, theta, phi, ⟨⟩⟩ := args
    refine (?_ : Answers value _ [phi, theta] _).of_perm (.swap theta phi [])
    exact (Answers.read phi).bind fun _ => (answers_phaseOf theta).bind fun _ => .ok _

theorem FourKind.answers_matrix (k : FourKind) (args : Args (Param Float) k.fields) :
    Answers value (Outcome True) (Operation.parameters ⟨.four k, args⟩) (k.matrix value args) := by
  cases k with
  | tripleControlledPauliX | tripleControlledPauliZ => exact .ok _
  | tripleControlledPhaseShift =>
    obtain ⟨q, r, s, t, theta, ⟨⟩⟩ := args
    exact (answers_phaseOf theta).bind fun _ => .ok _

/-- Without qubits there is no controlled exchange. -/
theorem RegisterKind.answers_matrix (k : RegisterKind) (args : Args (Param Float) k.fields) :
    Answers value (Outcome (Kind.isTotal (.register k) = true ∧
        (k = .cnot → Operation.qubits ⟨.register k, args⟩ ≠ [])))
      (Operation.parameters ⟨.register k, args⟩) (k.matrix value args) := by
  cases k with
  | ms | zz =>
    obtain ⟨qs, theta, ⟨⟩⟩ := args
    exact (Answers.read theta).bind fun _ => .ok _
  | cnot =>
    obtain ⟨qs, ⟨⟩⟩ := args
    cases qs with
    | nil => exact .rest (.error nofun fun h => h.2 rfl rfl)
    | cons q qs => exact .ok _
  | qft =>
    obtain ⟨qs, swaps, inverse, ⟨⟩⟩ := args
    exact .rest (((outcome_fourierMatrix _ _).bind fun _ => .ok _).mono
      fun h => absurd h.1 (by decide))

/-- The matrix of a gate whose parameters have finite values. -/
theorem Operation.answers_matrix {op : Operation (Param Float)} {tolerance : Float}
    {m : Except (Fault Float) (CMat Float)} (hspherical : op.kind ≠ .single .rotateSpherical)
    (hm : op.matrix? value tolerance = some m)
    (hfinite : ∀ p ∈ op.parameters, ∀ x, value p = .ok x → x.isFinite = true) :
    Answers value (Outcome (op.kind.isTotal = true ∧ (op.kind = .register .cnot → op.qubits ≠ [])))
      op.parameters m := by
  obtain ⟨kind, args⟩ := op
  cases kind with
  | single k =>
    obtain rfl := Option.some.inj hm
    exact (k.answers_matrix args (fun h => hspherical (congrArg _ h)) tolerance hfinite).mono
      And.left
  | two k =>
    obtain rfl := Option.some.inj hm
    exact (k.answers_matrix args hfinite).mono And.left
  | three k =>
    obtain rfl := Option.some.inj hm
    exact (k.answers_matrix args).mono fun _ => trivial
  | four k =>
    obtain rfl := Option.some.inj hm
    exact (k.answers_matrix args).mono fun _ => trivial
  | register k =>
    obtain rfl := Option.some.inj hm
    exact (k.answers_matrix args).mono (And.imp_right fun h hk => h (congrArg _ hk))
  | call => cases hm

end

end QuantumGates
