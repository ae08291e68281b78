-- Products of gates with symbolic parameters in exact arithmetic. The canonical values of a gate,
-- their products and the powers of a rotation evaluate to what the same operations make of the
-- evaluated gates, for every combination of numbers and expressions among the parameters.
import QuantumGates.Gate.Product
import QuantumGates.Proofs.Exact.NamedNumbers
import QuantumGates.Proofs.Exact.Operations

namespace QuantumGates

/-! ## Gates on one qubit -/

namespace Operation

/-- A gate on one qubit. -/
theorem exists_single {R : Type} {x : Operation (Param R)} {q : ℕ}
    (h : x.singleQubit? = some q) : ∃ k args, x = ⟨.single k, args⟩ := by
  obtain ⟨k, args⟩ := x
  cases k with
  | single k => exact ⟨k, args, rfl⟩
  | two k => cases h
  | three k => cases h
  | four k => cases h
  | register k => cases h
  | call => cases h

/-- A general gate is substituted by its canonical values. -/
theorem substitute_gate {R : Type} [Scalar R] (c : Canonical (Param R)) (q : ℕ)
    (evaluate : String → Except (Fault R) R) :
    (c.gate q).substitute evaluate =
      (c.mapM (Param.substitute evaluate)).map fun c => c.gate q := by
  obtain ⟨ar, ai, br, bi, phase⟩ := c
  unfold substitute mapParameters Canonical.mapM Canonical.gate
  simp only [Args.traverse, FieldKind.traverse]
  cases ar.substitute evaluate <;> cases ai.substitute evaluate <;>
    cases br.substitute evaluate <;> cases bi.substitute evaluate <;>
      cases phase.substitute evaluate <;> rfl

/-- The product of two gates on the same qubit. -/
theorem multiply_single {R : Type} [Scalar R] {k l : SingleKind} {args : Args (Param R) k.fields}
    {args' : Args (Param R) l.fields} {q : ℕ}
    (hk : singleQubit? ⟨.single k, args⟩ = some q) (hl : singleQubit? ⟨.single l, args'⟩ = some q) :
    multiply (R := R) ⟨.single k, args⟩ ⟨.single l, args'⟩ = do
      let c ← k.canonical args
      let d ← l.canonical args'
      return (c.mul d).gate q := by
  unfold multiply
  simp only [canonical?, hk, hl, ne_eq, not_true_eq_false, if_false]

end Operation

variable {R : Type} [ExactScalar R] {E : ExactEvaluation R} {b : Bindings R}

/-! ## Canonical values -/

/-- Each canonical value evaluates to the number in its place. -/
structure Canonical.EvaluatesTo (E : ExactEvaluation R) (b : Bindings R)
    (c c' : Canonical (Param R)) : Prop where
  alphaRe : c.alphaRe.EvaluatesTo E b c'.alphaRe
  alphaIm : c.alphaIm.EvaluatesTo E b c'.alphaIm
  betaRe : c.betaRe.EvaluatesTo E b c'.betaRe
  betaIm : c.betaIm.EvaluatesTo E b c'.betaIm
  phase : c.phase.EvaluatesTo E b c'.phase

namespace Canonical.EvaluatesTo

variable {c c' d d' : Canonical (Param R)}

theorem mul (hc : c.EvaluatesTo E b c') (hd : d.EvaluatesTo E b d') :
    (c.mul d).EvaluatesTo E b (c'.mul d') where
  alphaRe := ((hc.alphaRe.mul hd.alphaRe).sub (hc.alphaIm.mul hd.alphaIm)).sub
    ((hc.betaRe.mul hd.betaRe).add (hc.betaIm.mul hd.betaIm))
  alphaIm := ((hc.alphaRe.mul hd.alphaIm).add (hc.alphaIm.mul hd.alphaRe)).sub
    ((hc.betaRe.mul hd.betaIm).sub (hc.betaIm.mul hd.betaRe))
  betaRe := ((hc.betaRe.mul hd.alphaRe).sub (hc.betaIm.mul hd.alphaIm)).add
    ((hc.alphaRe.mul hd.betaRe).add (hc.alphaIm.mul hd.betaIm))
  betaIm := ((hc.betaRe.mul hd.alphaIm).add (hc.betaIm.mul hd.alphaRe)).add
    ((hc.alphaRe.mul hd.betaIm).sub (hc.alphaIm.mul hd.betaRe))
  phase := hc.phase.add hd.phase

theorem gate (hc : c.EvaluatesTo E b c') (q : ℕ) : (c.gate q).EvaluatesTo E b (c'.gate q) :=
  ⟨⟨rfl, hc.alphaRe, hc.alphaIm, hc.betaRe, hc.betaIm, hc.phase, trivial⟩⟩

end Canonical.EvaluatesTo

/-! ## The values of each gate -/

theorem bothOk_invRootTwo : BothOk Eq (invRootTwo : Except (Fault R) R) invRootTwo := by
  have htwo : 0 ≤ ExactScalar.real (Scalar.whole 2 : R) := by
    rw [ExactScalar.real_whole]
    positivity
  obtain ⟨y, hy, -⟩ := ExactScalar.sqrt?_eq (Scalar.whole 2 : R) htwo
  have hroot : (invRootTwo : Except (Fault R) R) = .ok (1 / y) := by
    unfold invRootTwo
    rw [hy]
    rfl
  exact ⟨_, _, hroot, hroot, rfl⟩

theorem Param.EvaluatesTo.half {p p' : Param R} (hp : p.EvaluatesTo E b p') :
    BothOk (Param.EvaluatesTo E b) (p.div (.literal (Scalar.whole 2)))
      (p'.div (.literal (Scalar.whole 2))) :=
  hp.div (ExactScalar.whole_ne_zero two_ne_zero)

theorem Param.EvaluatesTo.halfAngle {p p' : Param R} (hp : p.EvaluatesTo E b p') :
    BothOk (fun cs cs' => cs.1.EvaluatesTo E b cs'.1 ∧ cs.2.EvaluatesTo E b cs'.2)
      (halfAngle p) (halfAngle p') :=
  hp.half.bind fun _ _ hhalf => hhalf.cos.bind fun _ _ hc => hhalf.sin.bind fun _ _ hs =>
    .ok ⟨hc, hs⟩

/-- The canonical values of a gate evaluate to those of the evaluated gate. -/
theorem SingleKind.canonical_evaluates (k : SingleKind) {args args' : Args (Param R) k.fields}
    (h : args.EvaluatesTo E b k.fields args') :
    BothOk (Canonical.EvaluatesTo E b) (k.canonical args) (k.canonical args') := by
  have hnumber : ∀ x : R, (Param.literal x).EvaluatesTo E b (.literal x) := .literal
  cases k with
  | general =>
    obtain ⟨-, hre, him, hre', him', hphase, -⟩ := h
    exact .ok ⟨hre, him, hre', him', hphase⟩
  | rotateX =>
    exact h.2.1.halfAngle.bind fun _ _ hcs =>
      .ok ⟨hcs.1, hnumber 0, hnumber 0, hcs.2.neg, hnumber 0⟩
  | rotateY =>
    exact h.2.1.halfAngle.bind fun _ _ hcs =>
      .ok ⟨hcs.1, hnumber 0, hcs.2, hnumber 0, hnumber 0⟩
  | rotateZ =>
    exact h.2.1.halfAngle.bind fun _ _ hcs =>
      .ok ⟨hcs.1, hcs.2.neg, hnumber 0, hnumber 0, hnumber 0⟩
  | rotateXY =>
    obtain ⟨-, htheta, hphi, -⟩ := h
    exact htheta.halfAngle.bind fun _ _ hcs => hphi.sin.bind fun _ _ hsin =>
      hphi.cos.bind fun _ _ hcos =>
        .ok ⟨hcs.1, hnumber 0, hcs.2.mul hsin, (hcs.2.mul hcos).neg, hnumber 0⟩
  | rotateSpherical =>
    obtain ⟨-, htheta, hpolar, hazimuth, -⟩ := h
    exact htheta.halfAngle.bind fun _ _ hcs => hpolar.cos.bind fun _ _ hcosPolar =>
      hpolar.sin.bind fun _ _ hsinPolar => hazimuth.sin.bind fun _ _ hsinAzimuth =>
        hazimuth.cos.bind fun _ _ hcosAzimuth =>
          .ok ⟨hcs.1, (hcs.2.mul hcosPolar).neg, (hcs.2.mul hsinPolar).mul hsinAzimuth,
            ((hcs.2.mul hsinPolar).mul hcosAzimuth).neg, hnumber 0⟩
  | phaseShiftState0 =>
    exact h.2.1.halfAngle.bind fun _ _ hcs => h.2.1.half.bind fun _ _ hhalf =>
      .ok ⟨hcs.1, hcs.2, hnumber 0, hnumber 0, hhalf⟩
  | phaseShiftState1 =>
    exact h.2.1.halfAngle.bind fun _ _ hcs => h.2.1.half.bind fun _ _ hhalf =>
      .ok ⟨hcs.1, hcs.2.neg, hnumber 0, hnumber 0, hhalf⟩
  | gPi =>
    exact h.2.1.sin.bind fun _ _ hs => h.2.1.cos.bind fun _ _ hc =>
      .ok ⟨hnumber 0, hnumber 0, hs, hc.neg, hnumber _⟩
  | gPi2 =>
    refine bothOk_invRootTwo.bind ?_
    rintro f _ rfl
    exact h.2.1.sin.bind fun _ _ hs => h.2.1.cos.bind fun _ _ hc =>
      .ok ⟨hnumber f, hnumber 0, hs.mul (hnumber f), (hc.mul (hnumber f)).neg, hnumber _⟩
  | sGate | invSGate | hadamard =>
    refine bothOk_invRootTwo.bind ?_
    rintro f _ rfl
    exact .ok ⟨hnumber _, hnumber _, hnumber _, hnumber _, hnumber _⟩
  | identity | pauliX | pauliY | pauliZ | sqrtPauliX | invSqrtPauliX | sqrtPauliY
  | invSqrtPauliY | tGate | invTGate =>
    exact .ok ⟨hnumber _, hnumber _, hnumber _, hnumber _, hnumber _⟩

/-! ## Products, general gates and powers -/

namespace Operation

theorem EvaluatesTo.singleQubit?_eq {x x' : Operation (Param R)} (h : x.EvaluatesTo E b x') :
    x.singleQubit? = x'.singleQubit? := by
  have hqubits := h.qubits_eq
  obtain ⟨hargs⟩ := h
  unfold singleQubit?
  simp only [hqubits]

section

variable {x x' y y' : Operation (Param R)} {q : ℕ}

/-- A product evaluates to the product of the evaluated gates. -/
theorem EvaluatesTo.multiply (hx : x.EvaluatesTo E b x') (hy : y.EvaluatesTo E b y')
    (hxq : x.singleQubit? = some q) (hyq : y.singleQubit? = some q) :
    BothOk (Operation.EvaluatesTo E b) (x.multiply y) (x'.multiply y') := by
  have hxq' := hx.singleQubit?_eq.symm.trans hxq
  have hyq' := hy.singleQubit?_eq.symm.trans hyq
  obtain ⟨k, args, rfl⟩ := exists_single hxq
  obtain ⟨l, args', rfl⟩ := exists_single hyq
  obtain ⟨hk⟩ := hx
  obtain ⟨hl⟩ := hy
  rw [multiply_single hxq hyq, multiply_single hxq' hyq']
  exact (k.canonical_evaluates hk).bind fun _ _ hc => (l.canonical_evaluates hl).bind
    fun _ _ hd => .ok ((hc.mul hd).gate q)

/-- A gate evaluates, as the general gate, to the general gate of the evaluated one. -/
theorem EvaluatesTo.toGeneral? (hx : x.EvaluatesTo E b x') (hq : x.singleQubit? = some q) :
    ∃ m m', x.toGeneral? = some m ∧ x'.toGeneral? = some m' ∧
      BothOk (Operation.EvaluatesTo E b) m m' := by
  have hq' := hx.singleQubit?_eq.symm.trans hq
  obtain ⟨k, args, rfl⟩ := exists_single hq
  obtain ⟨hk⟩ := hx
  rename_i args'
  obtain ⟨c, c', hc, hc', hcc⟩ := k.canonical_evaluates hk
  refine ⟨(k.canonical args).map fun c => c.gate q, (k.canonical args').map fun c => c.gate q,
    ?_, ?_, ?_⟩
  · unfold Operation.toGeneral?
    simp only [canonical?, hq]
  · unfold Operation.toGeneral?
    simp only [canonical?, hq']
  · rw [hc, hc']
    exact .ok (hcc.gate q)

end

end Operation

/-- A change of a named parameter that keeps what it evaluates to. -/
theorem Args.EvaluatesTo.onNamed {fs : List Field} {args args' : Args (Param R) fs}
    (name : String) {change change' : Param R → Param R}
    (hchange : ∀ p p', p.EvaluatesTo E b p' → (change p).EvaluatesTo E b (change' p'))
    (h : args.EvaluatesTo E b fs args') :
    (args.onNamed name change fs).EvaluatesTo E b fs (args'.onNamed name change' fs) := by
  induction fs with
  | nil => trivial
  | cons f fs ih =>
    obtain ⟨n, kind⟩ := f
    refine ⟨?_, ?_⟩
    · cases kind with
      | parameter =>
        show Param.EvaluatesTo E b (if n = name then change args.1 else args.1)
          (if n = name then change' args'.1 else args'.1)
        split
        · exact hchange _ _ h.1
        · exact h.1
      | qubit => exact h.1
      | qubits => exact h.1
      | parameters => exact h.1
      | flag => exact h.1
      | name => exact h.1
    · cases kind <;> exact ih h.2

/-- A power of a rotation evaluates to the power of the evaluated rotation. -/
theorem Operation.EvaluatesTo.power {x x' : Operation (Param R)} {e e' : Param R}
    (hx : x.EvaluatesTo E b x') (he : e.EvaluatesTo E b e') (hrotation : x.kind.isRotation = true) :
    BothOk (Operation.EvaluatesTo E b) (x.power e) (x'.power e') := by
  obtain ⟨hargs⟩ := hx
  unfold Operation.power
  rw [if_pos hrotation, if_pos hrotation]
  exact .ok ⟨hargs.onNamed "theta" fun _ _ hp => he.mul hp⟩

/-- Products, general gates and powers in exact arithmetic. Where the gates and the exponent can be
substituted and their expressions are plain, what the operations make of them can be substituted
too, and it becomes what they make of the substituted gates. -/
theorem symbolic_product_evaluates (E : ExactEvaluation R) (b : Bindings R)
    {x x' y y' : Operation (Param R)} {e e' : Param R} {q : ℕ}
    (hxq : x.singleQubit? = some q) (hyq : y.singleQubit? = some q)
    (hxplain : ∀ s, .expression s ∈ x.parameters → IsPlainText s.toList)
    (hyplain : ∀ s, .expression s ∈ y.parameters → IsPlainText s.toList)
    (heplain : ∀ s, e = .expression s → IsPlainText s.toList)
    (hx : x.substitute (E.evaluate b) = .ok x') (hy : y.substitute (E.evaluate b) = .ok y')
    (he : e.substitute (E.evaluate b) = .ok e') :
    (∃ z z', x.multiply y = .ok z ∧ x'.multiply y' = .ok z' ∧
      z.substitute (E.evaluate b) = .ok z') ∧
    (∃ z z', x.toGeneral? = some (.ok z) ∧ x'.toGeneral? = some (.ok z') ∧
      z.substitute (E.evaluate b) = .ok z') ∧
    (x.kind.isRotation = true → ∃ z z', x.power e = .ok z ∧ x'.power e' = .ok z' ∧
      z.substitute (E.evaluate b) = .ok z') := by
  have hxx := Operation.EvaluatesTo.of_substitute hxplain hx
  have hyy := Operation.EvaluatesTo.of_substitute hyplain hy
  have hee := Param.EvaluatesTo.of_substitute heplain he
  refine ⟨?_, ?_, fun hrotation => ?_⟩
  · obtain ⟨z, z', hz, hz', hzz⟩ := hxx.multiply hyy hxq hyq
    exact ⟨z, z', hz, hz', hzz.substitute_eq_ok⟩
  · obtain ⟨m, m', hm, hm', z, z', rfl, rfl, hzz⟩ := hxx.toGeneral? hxq
    exact ⟨z, z', hm, hm', hzz.substitute_eq_ok⟩
  · obtain ⟨z, z', hz, hz', hzz⟩ := hxx.power hee hrotation
    exact ⟨z, z', hz, hz', hzz.substitute_eq_ok⟩

/-- A rotation by the double of `t` around an axis by minus `t`, multiplied with itself, as the
general gate, and to the power `t`, with half a turn for `t`. -/
theorem symbolic_product_of_half_turns :
    let x : Operation (Param NamedReal) := ⟨.single .rotateXY, 3, .expression "t + t",
      .expression "-t", ()⟩
    let x' : Operation (Param NamedReal) := ⟨.single .rotateXY, 3,
      .literal (Scalar.pi + Scalar.pi), .literal (-Scalar.pi), ()⟩
    let evaluate := NamedReal.evaluation.evaluate HalfTurn.bindings
    (∃ z z', x.multiply x = .ok z ∧ x'.multiply x' = .ok z' ∧ z.substitute evaluate = .ok z') ∧
    (∃ z z', x.toGeneral? = some (.ok z) ∧ x'.toGeneral? = some (.ok z') ∧
      z.substitute evaluate = .ok z') ∧
    ∃ z z', x.power (.expression "t") = .ok z ∧ x'.power (.literal Scalar.pi) = .ok z' ∧
      z.substitute evaluate = .ok z' := by
  intro x x' evaluate
  have hx : x.EvaluatesTo NamedReal.evaluation HalfTurn.bindings x' :=
    ⟨⟨rfl, HalfTurn.evaluates_double, HalfTurn.evaluates_opposite, trivial⟩⟩
  have hxplain : ∀ s, .expression s ∈ x.parameters → IsPlainText s.toList := by
    intro s hs
    have hcases : s = "t + t" ∨ s = "-t" := by
      simpa [x, Operation.parameters, Operation.values, Args.values, FieldKind.tagged,
        FieldValue.parameterList] using hs
    exact HalfTurn.isPlainText (by simp [hcases])
  have heplain : ∀ s, (Param.expression "t" : Param NamedReal) = .expression s →
      IsPlainText s.toList := by
    rintro s ⟨⟩
    exact HalfTurn.isPlainText (by simp)
  have hq : x.singleQubit? = some 3 := rfl
  obtain ⟨hproduct, hgeneral, hpower⟩ := symbolic_product_evaluates NamedReal.evaluation _ hq hq
    hxplain hxplain heplain hx.substitute_eq_ok hx.substitute_eq_ok
    HalfTurn.evaluates_t.substitute_eq_ok
  exact ⟨hproduct, hgeneral, hpower (by decide)⟩

/-- The evaluator of doubles gives no value beyond the largest double: both factors can be
substituted, and their product cannot. -/
theorem product_beyond_doubles :
    let b : Bindings Float := ⟨[("x", 1e200)]⟩
    let gate (p : Param Float) : Operation (Param Float) :=
      Canonical.gate ⟨p, .literal 0, .literal 0, .literal 0, .literal 0⟩ 0
    IsPlainExpression "x" ∧
      (gate (.expression "x")).substitute b.evaluate = .ok (gate (.literal 1e200)) ∧
      (gate (.expression "x")).multiply (gate (.expression "x")) =
        .ok (gate (.expression "(x * x)")) ∧
      (gate (.expression "(x * x)")).substitute b.evaluate =
        .error (.noValue "(x * x)" .notFinite) := by
  intro b gate
  let values (p : Param Float) : Canonical (Param Float) :=
    ⟨p, .literal 0, .literal 0, .literal 0, .literal 0⟩
  have hx : (values (.expression "x")).mapM (Param.substitute b.evaluate) =
      .ok (values (.literal 1e200)) := by
    decide +kernel
  have hproduct : (values (.expression "x")).mul (values (.expression "x")) =
      values (.expression "(x * x)") := by
    decide +kernel
  have hxx : (values (.expression "(x * x)")).mapM (Param.substitute b.evaluate) =
      .error (.noValue "(x * x)" .notFinite) := by
    decide +kernel
  refine ⟨⟨isPlainText_of_all rfl, .var "x", by decide +kernel⟩, ?_, ?_, ?_⟩
  · refine (Operation.substitute_gate _ 0 _).trans ?_
    exact congrArg (Except.map fun c => Canonical.gate c 0) hx
  · refine (Operation.multiply_single rfl rfl).trans ?_
    exact congrArg (fun c => Except.ok (Canonical.gate c 0)) hproduct
  · refine (Operation.substitute_gate _ 0 _).trans ?_
    exact congrArg (Except.map fun c => Canonical.gate c 0) hxx

end QuantumGates
