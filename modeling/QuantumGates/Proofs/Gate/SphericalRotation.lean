-- Rotations around an axis in space. The matrix is computed from the canonical values, which are
-- products of sines and cosines of the parameters. In exact arithmetic it fails for a parameter
-- without a value, unless a factor that is the number nought leaves the parameter out.
import QuantumGates.Proofs.Exact.Strictness
import QuantumGates.Proofs.Gate.Answers
import QuantumGates.Proofs.Gate.EvaluatedGates
import QuantumGates.Proofs.Gate.SymbolicProduct

namespace QuantumGates

/-! ## Canonical values -/

/-- The canonical values of a rotation around an axis in space. -/
theorem SingleKind.canonical_rotateSpherical {R : Type} [Scalar R] {q : ℕ}
    {theta polar azimuth half c s cosPolar sinPolar sinAzimuth cosAzimuth : Param R}
    (hhalf : theta.div (.literal (Scalar.whole 2)) = .ok half) (hc : half.cos = .ok c)
    (hs : half.sin = .ok s) (hcosPolar : polar.cos = .ok cosPolar)
    (hsinPolar : polar.sin = .ok sinPolar) (hsinAzimuth : azimuth.sin = .ok sinAzimuth)
    (hcosAzimuth : azimuth.cos = .ok cosAzimuth) :
    SingleKind.canonical .rotateSpherical (q, theta, polar, azimuth, ()) =
      .ok ⟨c, (s.mul cosPolar).neg, (s.mul sinPolar).mul sinAzimuth,
        ((s.mul sinPolar).mul cosAzimuth).neg, .literal 0⟩ := by
  have hangle : halfAngle theta = .ok (c, s) := by
    unfold halfAngle
    rw [hhalf]
    show (half.cos >>= fun c => half.sin >>= fun s => .ok (c, s)) = _
    rw [hc, hs]
    rfl
  simp only [SingleKind.canonical, hangle, hcosPolar, hsinPolar, hsinAzimuth, hcosAzimuth]
  rfl

/-- Canonical values of which one has no value make no matrix. -/
theorem canonicalMatrix_eq_error {R : Type} [Scalar R] {evaluate : String → Except (Fault R) R}
    (hfault : ∀ s fault, evaluate s = .error fault → ∃ reason, fault = .noValue s reason)
    {c : Canonical (Param R)} {p : Param R} (hp : p ∈ c.toList)
    (hvalue : ∀ x, p.value evaluate ≠ .ok x) (tolerance : R) : ∃ s reason,
      canonicalMatrix (Param.value evaluate) tolerance (.ok c) = .error (.noValue s reason) := by
  have hlack : ∃ s fault, .expression s ∈ c.toList ∧ evaluate s = .error fault := by
    cases p with
    | literal x => exact absurd rfl (hvalue x)
    | expression s =>
      cases hs : evaluate s with
      | error fault => exact ⟨s, fault, hp, hs⟩
      | ok x => exact absurd hs (hvalue x)
  have hanswers : Answers (Param.value evaluate) (Outcome True) c.toList
      (c.mapM (Param.value evaluate)) := answers_mapM c
  obtain ⟨s, reason, -, -, hm⟩ := (hanswers.of_evaluate hfault).1 hlack
  refine ⟨s, reason, ?_⟩
  show (c.mapM (Param.value evaluate) >>= _) = _
  rw [hm]
  rfl

section

variable {R : Type} [ExactScalar R] {S : StrictEvaluation R} {b : Bindings R}

/-- Only a number has a sine that is the number nought. -/
theorem Param.eq_literal_of_isZero_sin {p r : Param R} (h : p.sin = .ok r)
    (hr : r.isZero = true) : ∃ x, p = .literal x ∧ Real.sin (ExactScalar.real x) = 0 := by
  obtain ⟨x, rfl, hx⟩ := Param.eq_literal_of_isZero_apply h hr
  obtain ⟨y, hy, hreal⟩ := ExactScalar.sin?_eq x
  obtain rfl : (0 : R) = y := Except.ok.inj (hx.symm.trans hy)
  exact ⟨x, rfl, by rw [← hreal, ExactScalar.real_zero]⟩

/-- What the canonical values of a rotation around an axis in space need. Only a number as the angle
whose half has no sine leaves the polar angle out, and only that or a number without a sine as the
polar angle leaves the azimuth out. -/
theorem SingleKind.exists_canonical_needs {theta polar azimuth : Param R}
    (htheta : ∃ f, theta.ReadsAs f) (hpolar : ∃ f, polar.ReadsAs f)
    (hazimuth : ∃ f, azimuth.ReadsAs f) (S : StrictEvaluation R) (b : Bindings R) (q : ℕ) :
    ∃ c, SingleKind.canonical .rotateSpherical (q, theta, polar, azimuth, ()) = .ok c ∧
      c.alphaRe.Needs S b [theta] ∧
      ((∀ x, theta = .literal x → Real.sin (ExactScalar.real x / 2) ≠ 0) →
        polar.isLiteral = false → c.alphaIm.Needs S b [theta, polar]) ∧
      ((∀ x, theta = .literal x → Real.sin (ExactScalar.real x / 2) ≠ 0) →
        (∀ x, polar = .literal x → Real.sin (ExactScalar.real x) ≠ 0) →
        azimuth.isLiteral = false → c.betaRe.Needs S b [theta, polar, azimuth]) := by
  have htwo : (Scalar.whole 2 : R) ≠ 0 := ExactScalar.whole_ne_zero two_ne_zero
  obtain ⟨half, hhalf, hneedshalf⟩ := (Param.Needs.refl (S := S) (b := b) htheta).div htwo
  obtain ⟨c, hc, hneedsc⟩ := hneedshalf.cos
  obtain ⟨s, hs, hneedss⟩ := hneedshalf.sin
  obtain ⟨cp, hcp, hneedscp⟩ := (Param.Needs.refl (S := S) (b := b) hpolar).cos
  obtain ⟨sp, hsp, hneedssp⟩ := (Param.Needs.refl (S := S) (b := b) hpolar).sin
  obtain ⟨sa, hsa, hneedssa⟩ := (Param.Needs.refl (S := S) (b := b) hazimuth).sin
  obtain ⟨ca, hca, -⟩ := (Param.Needs.refl (S := S) (b := b) hazimuth).cos
  have hturns : (∀ x, theta = .literal x → Real.sin (ExactScalar.real x / 2) ≠ 0) →
      ¬ s.isZero = true := by
    intro hne hzero
    obtain ⟨z, rfl, hz⟩ := Param.eq_literal_of_isZero_sin hs hzero
    obtain ⟨x, rfl, rfl⟩ := Param.eq_literal_of_div htwo hhalf
    refine hne x rfl ?_
    rwa [ExactScalar.real_div, ExactScalar.real_whole, Nat.cast_ofNat] at hz
  refine ⟨_, SingleKind.canonical_rotateSpherical hhalf hc hs hcp hsp hsa hca, hneedsc, ?_, ?_⟩
  · intro hne hexpression
    refine (hneedss.mul hneedscp (hturns hne) fun hzero => ?_).neg
    obtain ⟨x, rfl, -⟩ := Param.eq_literal_of_isZero_apply hcp hzero
    cases hexpression
  · intro hne hnepolar hexpression
    have htilts : ¬ sp.isZero = true := by
      intro hzero
      obtain ⟨x, hx, hsin⟩ := Param.eq_literal_of_isZero_sin hsp hzero
      exact hnepolar x hx hsin
    have hproduct : ¬ (s.mul sp).isZero = true :=
      fun hzero => (Param.isZero_of_mul hzero).elim (hturns hne) htilts
    refine (hneedss.mul hneedssp (hturns hne) htilts).mul hneedssa hproduct fun hzero => ?_
    obtain ⟨x, rfl, -⟩ := Param.eq_literal_of_isZero_apply hsa hzero
    cases hexpression

theorem Param.exists_readsAs {ps : List (Param R)} (S : StrictEvaluation R)
    (hplain : ∀ s, .expression s ∈ ps → IsPlainExpression s) {p : Param R} (hp : p ∈ ps) :
    ∃ f, p.ReadsAs f := by
  cases p with
  | literal x => exact (Param.ReadsAs.exists_literal S.toExactEvaluation x).imp fun _ h => h.1
  | expression s =>
    obtain ⟨hs, f, hf⟩ := hplain s hp
    exact ⟨f, .expression hs hf⟩

/-- A parameter without a value makes all that need it have none. -/
theorem Param.Needs.value_ne_ok {p q : Param R} {ps : List (Param R)} {fault : Fault R}
    (hp : p.Needs S b ps) (hq : q ∈ ps) (hread : ∃ f, q.ReadsAs f)
    (hfault : q.value (S.evaluate b) = .error fault) (x : R) : p.value (S.evaluate b) ≠ .ok x := by
  obtain ⟨f, hf⟩ := hp.readable
  obtain ⟨g, hg⟩ := hread
  intro hx
  obtain ⟨y, hy⟩ := hp.needed (hf.value_eq_ok_iff.mp hx) q hq
  cases hfault.symm.trans (hg.value_eq_ok_iff.mpr hy)

/-- A rotation around an axis in space without the value of a parameter that is not left out. -/
theorem SingleKind.matrix_rotateSpherical_eq_error {theta polar azimuth : Param R}
    (hplain : ∀ s, .expression s ∈ [theta, polar, azimuth] → IsPlainExpression s) (q : ℕ)
    (tolerance : R)
    (hlack : (∃ fault, theta.value (S.evaluate b) = .error fault) ∨
      ((∀ x, theta = .literal x → Real.sin (ExactScalar.real x / 2) ≠ 0) ∧
        ∃ fault, polar.value (S.evaluate b) = .error fault) ∨
      ((∀ x, theta = .literal x → Real.sin (ExactScalar.real x / 2) ≠ 0) ∧
        (∀ x, polar = .literal x → Real.sin (ExactScalar.real x) ≠ 0) ∧
        ∃ fault, azimuth.value (S.evaluate b) = .error fault)) :
    ∃ s reason, SingleKind.matrix (Param.value (S.evaluate b)) tolerance .rotateSpherical
      (q, theta, polar, azimuth, ()) = .error (.noValue s reason) := by
  have hread : ∀ p ∈ [theta, polar, azimuth], ∃ f, p.ReadsAs f :=
    fun p hp => Param.exists_readsAs S hplain hp
  have hthetamem : theta ∈ [theta, polar, azimuth] := .head _
  have hpolarmem : polar ∈ [theta, polar, azimuth] := .tail _ (.head _)
  have hazimuthmem : azimuth ∈ [theta, polar, azimuth] := .tail _ (.tail _ (.head _))
  obtain ⟨c, hc, htheta, hpolar, hazimuth⟩ := SingleKind.exists_canonical_needs
    (hread theta hthetamem) (hread polar hpolarmem) (hread azimuth hazimuthmem) S b q
  have hmatrix : SingleKind.matrix (Param.value (S.evaluate b)) tolerance .rotateSpherical
      (q, theta, polar, azimuth, ()) = canonicalMatrix (Param.value (S.evaluate b)) tolerance
        (.ok c) := by
    rw [← hc]
    rfl
  rw [hmatrix]
  have hfault : ∀ s fault, S.evaluate b s = .error fault → ∃ reason, fault = .noValue s reason :=
    fun _ _ => ExactEvaluation.eq_noValue_of_evaluate
  rcases hlack with ⟨fault, hlack⟩ | ⟨hturns, fault, hlack⟩ | ⟨hturns, htilts, fault, hlack⟩
  · exact canonicalMatrix_eq_error hfault (.head _)
      (htheta.value_ne_ok (.head _) (hread theta hthetamem) hlack) tolerance
  · have hneeds := hpolar hturns (Param.isLiteral_eq_false hlack)
    exact canonicalMatrix_eq_error hfault (.tail _ (.head _))
      (hneeds.value_ne_ok (.tail _ (.head _)) (hread polar hpolarmem) hlack) tolerance
  · have hneeds := hazimuth hturns htilts (Param.isLiteral_eq_false hlack)
    exact canonicalMatrix_eq_error hfault (.tail _ (.tail _ (.head _)))
      (hneeds.value_ne_ok hazimuthmem (hread azimuth hazimuthmem) hlack) tolerance

/-- In exact arithmetic a rotation around an axis in space has the matrix of the rotation by the
values of its parameters. -/
theorem SingleKind.matrix_rotateSpherical_congr {E : ExactEvaluation R}
    {args args' : Args (Param R) SingleKind.rotateSpherical.fields}
    (h : args.EvaluatesTo E b SingleKind.rotateSpherical.fields args') (tolerance : R) :
    SingleKind.matrix (Param.value (E.evaluate b)) tolerance .rotateSpherical args =
      SingleKind.matrix (Param.value (E.evaluate b)) tolerance .rotateSpherical args' := by
  obtain ⟨c, c', hc, hc', hvalues⟩ := SingleKind.canonical_evaluates .rotateSpherical h
  have hsame : ∀ p p' : Param R, p.EvaluatesTo E b p' →
      p.value (E.evaluate b) = p'.value (E.evaluate b) := by
    intro p p' hp
    obtain ⟨x, hx, rfl⟩ := Param.substitute_eq_ok_iff.mp hp.substitute_eq_ok
    exact hx
  show canonicalMatrix _ tolerance (SingleKind.canonical .rotateSpherical args) =
    canonicalMatrix _ tolerance (SingleKind.canonical .rotateSpherical args')
  rw [hc, hc']
  exact canonicalMatrix_congr (hsame _ _ hvalues.alphaRe) (hsame _ _ hvalues.alphaIm)
    (hsame _ _ hvalues.betaRe) (hsame _ _ hvalues.betaIm) (hsame _ _ hvalues.phase) tolerance

end

/-! ## Doubles -/

theorem Param.exists_apply {p : Param Float} (name : String)
    {f : Float → Except (Fault Float) Float}
    (h : ∀ x, p = .literal x → ∃ y, f x = .ok y) : ∃ r, p.apply name f = .ok r := by
  cases p with
  | literal x =>
    obtain ⟨y, hy⟩ := h x rfl
    exact ⟨.literal y, by simp only [Param.apply, hy]; rfl⟩
  | expression s => exact ⟨_, rfl⟩

theorem Param.exists_half {p : Param Float} (h : ∀ x, p = .literal x → x.isFinite = true) :
    ∃ half, p.div (.literal (Scalar.whole 2)) = .ok half ∧
      ∀ x, half = .literal x → x.isFinite = true := by
  have hzero : ¬ (Param.literal (Scalar.whole 2 : Float)).isZero = true := by decide
  cases p with
  | literal x =>
    refine ⟨.literal (x / Float.ofNat 2), if_neg hzero, ?_⟩
    rintro _ ⟨⟩
    exact Double.isFinite_half (h x rfl)
  | expression s =>
    have hone : ¬ (Param.literal (Scalar.whole 2 : Float)).isOne = true := by decide
    refine ⟨.joined "/" (.expression s) (.literal (Scalar.whole 2)), ?_, nofun⟩
    unfold Param.div
    rw [if_neg hzero]
    dsimp only
    rw [if_neg hone]
    rfl

/-- Expressions in a rotation around an axis in space only make its canonical values longer. -/
theorem SingleKind.exists_canonical_rotateSpherical {q : ℕ} {theta polar azimuth : Param Float}
    (hfinite : ∀ x, .literal x ∈ [theta, polar, azimuth] → x.isFinite = true) :
    ∃ c, SingleKind.canonical .rotateSpherical (q, theta, polar, azimuth, ()) = .ok c := by
  have hperiodic : ∀ (f : Float → Float) (p : Param Float),
      (∀ x, p = .literal x → x.isFinite = true) →
        ∀ x, p = .literal x → ∃ y, Double.periodic f x = .ok y := fun f p hp x hx =>
    (outcome_periodic_of_isFinite f (hp x hx)).exists_ok trivial
  obtain ⟨half, hhalf, hfinitehalf⟩ := Param.exists_half fun x hx => hfinite x (hx ▸ .head _)
  have hpolar : ∀ x, polar = .literal x → x.isFinite = true :=
    fun x hx => hfinite x (hx ▸ .tail _ (.head _))
  have hazimuth : ∀ x, azimuth = .literal x → x.isFinite = true :=
    fun x hx => hfinite x (hx ▸ .tail _ (.tail _ (.head _)))
  obtain ⟨c, hc⟩ := Param.exists_apply "cos" (hperiodic Double.cos half hfinitehalf)
  obtain ⟨s, hs⟩ := Param.exists_apply "sin" (hperiodic Double.sin half hfinitehalf)
  obtain ⟨cp, hcp⟩ := Param.exists_apply "cos" (hperiodic Double.cos polar hpolar)
  obtain ⟨sp, hsp⟩ := Param.exists_apply "sin" (hperiodic Double.sin polar hpolar)
  obtain ⟨sa, hsa⟩ := Param.exists_apply "sin" (hperiodic Double.sin azimuth hazimuth)
  obtain ⟨ca, hca⟩ := Param.exists_apply "cos" (hperiodic Double.cos azimuth hazimuth)
  exact ⟨_, SingleKind.canonical_rotateSpherical hhalf hc hs hcp hsp hsa hca⟩

end QuantumGates
