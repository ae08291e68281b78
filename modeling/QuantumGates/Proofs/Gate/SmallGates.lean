-- The gates on one and on two qubits are unitary. Each kind is a block, two blocks side by side,
-- or a diagonal of phases. Only the gate given by its canonical values can be anything else, and
-- its norm is the square of the length of its columns.
import QuantumGates.Proofs.Gate.Blocks
import QuantumGates.Proofs.Circuit.ControlledFlip

namespace QuantumGates

open CMat Finset

/-! ## The canonical form -/

namespace Canonical

/-- The square of the length of the columns. -/
noncomputable def norm (c : Canonical ℝ) : ℝ :=
  c.alphaRe * c.alphaRe + c.alphaIm * c.alphaIm + c.betaRe * c.betaRe + c.betaIm * c.betaIm

/-- The matrix of canonical values. -/
noncomputable def form (c : Canonical ℝ) : CMat ℝ :=
  Mat.scale (Cplx.cis c.phase)
    (table [[⟨c.alphaRe, c.alphaIm⟩, ⟨-c.betaRe, c.betaIm⟩],
      [⟨c.betaRe, c.betaIm⟩, ⟨c.alphaRe, -c.alphaIm⟩]])

theorem hasGram_form (c : Canonical ℝ) : c.form.HasGram 2 (real c.norm) := by
  have htable : (table [[⟨c.alphaRe, c.alphaIm⟩, ⟨-c.betaRe, c.betaIm⟩],
      [⟨c.betaRe, c.betaIm⟩, ⟨c.alphaRe, -c.alphaIm⟩]]).HasGram 2 (real c.norm) := by
    refine hasGram_table ?_ ?_ ?_
    · ext <;> simp [Cplx.conj, real, Cplx.ofReal, norm] <;> ring
    · ext <;> simp [Cplx.conj] <;> ring
    · ext <;> simp [Cplx.conj, real, Cplx.ofReal, norm] <;> ring
  have hscaled := htable.scale (Cplx.cis c.phase)
  rwa [Cplx.conj_cis_mul_cis, one_mul] at hscaled

/-- A matrix is only made if the norm is one within the tolerance. -/
theorem matrix_eq (c : Canonical ℝ) (tolerance : ℝ) :
    c.matrix tolerance = if tolerance < |c.norm - 1| then
      .error (.notUnitary c.alphaRe c.alphaIm c.betaRe c.betaIm c.norm) else .ok c.form := by
  have hread : c.matrix tolerance = if Scalar.below tolerance (Scalar.abs (c.norm - 1)) then
      .error (.notUnitary c.alphaRe c.alphaIm c.betaRe c.betaIm c.norm) else .ok c.form := by
    unfold Canonical.matrix
    show (if Scalar.below tolerance (Scalar.abs (c.norm - 1)) then _ else _) = _
    split
    · rfl
    · rfl
  have hbelow : Scalar.below tolerance (Scalar.abs (c.norm - 1)) =
      decide (tolerance < |c.norm - 1|) := rfl
  rw [hread, hbelow]
  simp only [decide_eq_true_eq]

/-- Values of norm one are accepted. -/
theorem matrix_eq_form (c : Canonical ℝ) {tolerance : ℝ} (hc : c.norm = 1) (ht : 0 ≤ tolerance) :
    c.matrix tolerance = .ok c.form := by
  rw [matrix_eq, hc, sub_self, abs_zero, if_neg (not_lt.mpr ht)]

theorem exists_matrix_iff (c : Canonical ℝ) (tolerance : ℝ) :
    (∃ u, c.matrix tolerance = .ok u) ↔ |c.norm - 1| ≤ tolerance := by
  rw [matrix_eq]
  split
  · rename_i h
    simp [not_le.mpr h]
  · rename_i h
    simp [not_lt.mp h]

theorem eq_form_of_matrix {c : Canonical ℝ} {tolerance : ℝ} {u : CMat ℝ}
    (h : c.matrix tolerance = .ok u) : u = c.form := by
  rw [matrix_eq] at h
  split at h
  · cases h
  · cases h
    rfl

end Canonical

/-! ## One qubit -/

theorem cosine_mul_self_add :
    SingleKind.matrix.cosine * SingleKind.matrix.cosine +
      SingleKind.matrix.cosine * SingleKind.matrix.cosine = (1 : ℝ) := by
  have hcosine : (SingleKind.matrix.cosine : ℝ) = √2 / 2 := by
    show Real.cos (partOfPi 4) = _
    unfold partOfPi
    rw [Exact.pi_eq, Exact.whole_eq, Nat.cast_ofNat, Real.cos_pi_div_four]
  have hroot : √2 * √2 = (2 : ℝ) := Real.mul_self_sqrt (by norm_num)
  rw [hcosine]
  linear_combination hroot / 2

/-- Columns of squared length two, scaled by one over the square root of two. -/
theorem Mat.HasGram.isUnitary_scale {m : CMat ℝ} {n : ℕ} (h : m.HasGram n 2) :
    (Mat.scale (real (1 / √2)) m).IsUnitary n := by
  have hone : (real (1 / √2)).conj * real (1 / √2) * 2 = 1 := by
    rw [Cplx.conj_real, mul_comm]
    exact two_mul_hadamard_share
  have hscaled := h.scale (real (1 / √2))
  rw [hone] at hscaled
  exact hscaled.isUnitary

section

variable (evaluate : String → Except (Fault ℝ) ℝ) {tolerance : ℝ}

theorem isUnitary_hadamard (q : ℕ) :
    ∃ u, SingleKind.hadamard.matrix (Param.value evaluate) tolerance (q, ()) = .ok u ∧
      u.IsUnitary 2 := by
  have htable : (table [[1, 1], [1, -1]]).HasGram 2 2 := by
    refine hasGram_table ?_ ?_ ?_ <;> grind
  refine ⟨_, ?_, htable.isUnitary_scale⟩
  unfold SingleKind.matrix
  rw [invRootTwo_eq]
  rfl

theorem isUnitary_gPi2 (q : ℕ) (theta : ℝ) :
    ∃ u, SingleKind.gPi2.matrix (Param.value evaluate) tolerance (q, .literal theta, ()) = .ok u ∧
      u.IsUnitary 2 := by
  have hp := Cplx.conj_cis_mul_cis theta
  have hi := Cplx.i_mul_i
  have htable : (table [[1, minusI 1 * (Cplx.cis theta).conj],
      [minusI 1 * Cplx.cis theta, 1]]).HasGram 2 2 := by
    refine hasGram_table ?_ ?_ ?_ <;> grind
  refine ⟨_, ?_, htable.isUnitary_scale⟩
  unfold SingleKind.matrix
  rw [invRootTwo_eq]
  rfl

theorem half_literal (x : ℝ) :
    (Param.literal x).div (.literal (Scalar.whole 2)) = .ok (.literal (x / 2)) := by
  have h := div_two_pow x 1
  rwa [pow_one] at h

theorem halfAngle_literal (x : ℝ) :
    halfAngle (.literal x) = .ok (.literal (Real.cos (x / 2)), .literal (Real.sin (x / 2))) := by
  unfold halfAngle
  rw [half_literal]
  rfl

/-- The canonical values of the rotation by twice the angle `half` around an axis given by its
angles. -/
noncomputable def Canonical.spherical (half polar azimuth : ℝ) : Canonical ℝ :=
  ⟨Real.cos half, -(Real.sin half * Real.cos polar),
    Real.sin half * Real.sin polar * Real.sin azimuth,
    -(Real.sin half * Real.sin polar * Real.cos azimuth), 0⟩

theorem Canonical.norm_spherical (half polar azimuth : ℝ) :
    (spherical half polar azimuth).norm = 1 := by
  have hhalf := cos_mul_self_add half
  have hpolar := cos_mul_self_add polar
  have hazimuth := cos_mul_self_add azimuth
  simp only [norm, spherical]
  linear_combination hhalf + Real.sin half ^ 2 * hpolar +
    (Real.sin half * Real.sin polar) ^ 2 * hazimuth

theorem matrix_rotateSpherical (ht : 0 ≤ tolerance) (q : ℕ) (x polar azimuth : ℝ) :
    SingleKind.rotateSpherical.matrix (Param.value evaluate) tolerance
      (q, .literal x, .literal polar, .literal azimuth, ()) =
        .ok (Canonical.spherical (x / 2) polar azimuth).form := by
  have hmatrix := (Canonical.spherical (x / 2) polar azimuth).matrix_eq_form
    (Canonical.norm_spherical (x / 2) polar azimuth) ht
  simp only [SingleKind.matrix, SingleKind.canonical, halfAngle_literal]
  exact hmatrix

/-- The rotation around an axis given by its angles has norm one. -/
theorem isUnitary_rotateSpherical (ht : 0 ≤ tolerance) (q : ℕ) (x polar azimuth : ℝ) :
    ∃ u, SingleKind.rotateSpherical.matrix (Param.value evaluate) tolerance
        (q, .literal x, .literal polar, .literal azimuth, ()) = .ok u ∧ u.IsUnitary 2 := by
  have hgram := (Canonical.spherical (x / 2) polar azimuth).hasGram_form
  rw [Canonical.norm_spherical, Cplx.real_one] at hgram
  exact ⟨_, matrix_rotateSpherical evaluate ht q x polar azimuth, hgram.isUnitary⟩

theorem SingleKind.isUnitary_matrix (ht : 0 ≤ tolerance) (k : SingleKind)
    (args : Args (Param ℝ) k.fields) (hk : k ≠ .general)
    (hp : Operation.isParametrized ⟨.single k, args⟩ = false) :
    ∃ u, k.matrix (Param.value evaluate) tolerance args = .ok u ∧ u.IsUnitary 2 := by
  have hone : (1 : Cplx ℝ).conj * 1 = 1 := by simp
  have hminus : (-1 : Cplx ℝ).conj * -1 = 1 := by simp
  have hcosine := cosine_mul_self_add
  have hback : SingleKind.matrix.cosine * SingleKind.matrix.cosine +
      -SingleKind.matrix.cosine * -SingleKind.matrix.cosine = (1 : ℝ) := by
    rw [neg_mul_neg]
    exact hcosine
  cases k with
  | general => exact absurd rfl hk
  | identity => exact ⟨_, rfl, Mat.isUnitary_identity 1⟩
  | rotateX =>
    obtain ⟨q, theta | _, ⟨⟩⟩ := args <;> cases hp
    exact ⟨_, rfl, (hasGram_rotationX (cos_mul_self_add _)).isUnitary⟩
  | rotateY =>
    obtain ⟨q, theta | _, ⟨⟩⟩ := args <;> cases hp
    exact ⟨_, rfl, (hasGram_rotationY (cos_mul_self_add _)).isUnitary⟩
  | rotateZ =>
    obtain ⟨q, theta | _, ⟨⟩⟩ := args <;> cases hp
    have hphase := Cplx.conj_cis_mul_cis (fraction 1 2 * theta)
    exact ⟨_, rfl, (hasGram_phases (conj_unit hphase) hphase).isUnitary⟩
  | rotateXY =>
    obtain ⟨q, theta | _, phi | _, ⟨⟩⟩ := args <;> cases hp
    exact ⟨_, rfl, (hasGram_rotation (cos_mul_self_add _) (Cplx.conj_cis_mul_cis phi)).isUnitary⟩
  | rotateSpherical =>
    obtain ⟨q, theta | _, polar | _, azimuth | _, ⟨⟩⟩ := args <;> cases hp
    exact isUnitary_rotateSpherical evaluate ht q theta polar azimuth
  | phaseShiftState0 =>
    obtain ⟨q, theta | _, ⟨⟩⟩ := args <;> cases hp
    refine ⟨_, rfl, isUnitary_diagonalOf (n := 1) rfl ?_⟩
    simp [Cplx.conj_cis_mul_cis]
  | phaseShiftState1 =>
    obtain ⟨q, theta | _, ⟨⟩⟩ := args <;> cases hp
    refine ⟨_, rfl, isUnitary_diagonalOf (n := 1) rfl ?_⟩
    simp [Cplx.conj_cis_mul_cis]
  | pauliX => exact ⟨_, rfl, (hasGram_flip hone hone).isUnitary⟩
  | pauliY =>
    exact ⟨_, rfl,
      (hasGram_flip conj_imaginary_neg_one_mul conj_imaginary_one_mul).isUnitary⟩
  | pauliZ => exact ⟨_, rfl, (hasGram_phases hone hminus).isUnitary⟩
  | sqrtPauliX => exact ⟨_, rfl, (hasGram_rotationX hcosine).isUnitary⟩
  | invSqrtPauliX => exact ⟨_, rfl, (hasGram_rotationX hback).isUnitary⟩
  | sqrtPauliY => exact ⟨_, rfl, (hasGram_rotationY hcosine).isUnitary⟩
  | invSqrtPauliY =>
    have hrotation := hasGram_rotationY hback
    rw [neg_neg] at hrotation
    exact ⟨_, rfl, hrotation.isUnitary⟩
  | sGate => exact ⟨_, rfl, (hasGram_phases hone conj_imaginary_one_mul).isUnitary⟩
  | invSGate => exact ⟨_, rfl, (hasGram_phases hone conj_imaginary_neg_one_mul).isUnitary⟩
  | tGate => exact ⟨_, rfl, (hasGram_phases hone (Cplx.conj_cis_mul_cis _)).isUnitary⟩
  | invTGate => exact ⟨_, rfl, (hasGram_phases hone (Cplx.conj_cis_mul_cis _)).isUnitary⟩
  | hadamard => exact isUnitary_hadamard evaluate args.1
  | gPi =>
    obtain ⟨q, theta | _, ⟨⟩⟩ := args <;> cases hp
    have hphase := Cplx.conj_cis_mul_cis theta
    exact ⟨_, rfl, (hasGram_flip (conj_unit hphase) hphase).isUnitary⟩
  | gPi2 =>
    obtain ⟨q, theta | _, ⟨⟩⟩ := args <;> cases hp
    exact isUnitary_gPi2 evaluate q theta

/-! ## Two qubits -/

theorem hasGram_outerInner_unit {inner : List (List (Cplx ℝ))}
    (h : (table inner).HasGram 2 1) : (outerInner unitRows inner).IsUnitary 4 :=
  (hasGram_outerInner (hasGram_phases (by simp) (by simp)) h).isUnitary

theorem isUnitary_echoCrossResonance :
    (Mat.scale (real (1 / √2)) (table [[0, 1, 0, imaginary 1], [1, 0, imaginary (-1), 0],
      [0, imaginary 1, 0, 1], [imaginary (-1), 0, 1, 0]])).IsUnitary 4 := by
  have hi := Cplx.i_mul_i
  refine Mat.HasGram.isUnitary_scale ⟨⟨rfl, rfl⟩, fun r hr c hc => ?_⟩
  simp only [sum_range_succ, sum_range_zero, zero_add]
  interval_cases r <;> interval_cases c <;> simp [get_table] <;> grind

theorem TwoKind.isUnitary_matrix (k : TwoKind) (args : Args (Param ℝ) k.fields)
    (hp : Operation.isParametrized ⟨.two k, args⟩ = false) :
    ∃ u, k.matrix (Param.value evaluate) args = .ok u ∧ u.IsUnitary 4 := by
  have hone : (1 : Cplx ℝ).conj * 1 = 1 := by simp
  have hminus : (-1 : Cplx ℝ).conj * -1 = 1 := by simp
  have hroot := invRootTwo_mul_self_add
  cases k with
  | cnot => exact ⟨_, rfl, (hasGram_controlled (hasGram_flip hone hone)).isUnitary⟩
  | swap => exact ⟨_, rfl, hasGram_outerInner_unit (hasGram_flip hone hone)⟩
  | iSwap =>
    exact ⟨_, rfl, hasGram_outerInner_unit
      (hasGram_flip conj_imaginary_one_mul conj_imaginary_one_mul)⟩
  | fSwap =>
    exact ⟨_, rfl,
      (hasGram_outerInner (hasGram_phases hone hminus) (hasGram_flip hone hone)).isUnitary⟩
  | sqrtISwap =>
    have hblock := hasGram_imaginaryRotation hroot
    have hentry : imaginary 1 * real (1 / √2) = imaginary (1 / √2) := by grind
    rw [hentry] at hblock
    refine ⟨_, ?_, hasGram_outerInner_unit hblock⟩
    simp only [TwoKind.matrix, invRootTwo_eq]
    rfl
  | invSqrtISwap =>
    refine ⟨_, ?_, hasGram_outerInner_unit (hasGram_rotationX hroot)⟩
    simp only [TwoKind.matrix, invRootTwo_eq]
    rfl
  | controlledPauliY =>
    exact ⟨_, rfl, (hasGram_controlled
      (hasGram_flip conj_imaginary_neg_one_mul conj_imaginary_one_mul)).isUnitary⟩
  | controlledPauliZ => exact ⟨_, rfl, isUnitary_diagonalOf (n := 2) rfl (by simp)⟩
  | molmerSorensenXX =>
    refine ⟨_, ?_, (hasGram_outerInner (hasGram_rotationX hroot)
      (hasGram_rotationX hroot)).isUnitary⟩
    simp only [TwoKind.matrix, invRootTwo_eq]
    rfl
  | echoCrossResonance =>
    refine ⟨_, ?_, isUnitary_echoCrossResonance⟩
    simp only [TwoKind.matrix, invRootTwo_eq]
    rfl
  | xy =>
    obtain ⟨a, b, theta | _, ⟨⟩⟩ := args <;> cases hp
    exact ⟨_, rfl, hasGram_outerInner_unit (hasGram_imaginaryRotation (cos_mul_self_add _))⟩
  | controlledPhaseShift =>
    obtain ⟨a, b, theta | _, ⟨⟩⟩ := args <;> cases hp
    refine ⟨_, rfl, isUnitary_diagonalOf (n := 2) rfl ?_⟩
    simp [Cplx.conj_cis_mul_cis]
  | variableMSXX =>
    obtain ⟨a, b, theta | _, ⟨⟩⟩ := args <;> cases hp
    have hblock := hasGram_rotationX (cos_mul_self_add (theta / Scalar.whole 2))
    exact ⟨_, rfl, (hasGram_outerInner hblock hblock).isUnitary⟩
  | givens =>
    obtain ⟨a, b, theta | _, phi | _, ⟨⟩⟩ := args <;> cases hp
    have hphase := Cplx.conj_cis_mul_cis phi
    exact ⟨_, rfl, (hasGram_outerInner (hasGram_phases hone hphase)
      (hasGram_phasedColumn (cos_mul_self_add theta) hphase)).isUnitary⟩
  | givensLittleEndian =>
    obtain ⟨a, b, theta | _, phi | _, ⟨⟩⟩ := args <;> cases hp
    have hphase := Cplx.conj_cis_mul_cis phi
    exact ⟨_, rfl, (hasGram_outerInner (hasGram_phases hone hphase)
      (hasGram_phasedRow (cos_mul_self_add theta) hphase)).isUnitary⟩
  | controlledRotateX =>
    obtain ⟨a, b, theta | _, ⟨⟩⟩ := args <;> cases hp
    exact ⟨_, rfl, (hasGram_controlled (hasGram_rotationX (cos_mul_self_add _))).isUnitary⟩
  | controlledRotateXY =>
    obtain ⟨a, b, theta | _, phi | _, ⟨⟩⟩ := args <;> cases hp
    exact ⟨_, rfl, (hasGram_controlled
      (hasGram_rotation (cos_mul_self_add _) (Cplx.conj_cis_mul_cis phi))).isUnitary⟩
  | spinInteraction =>
    obtain ⟨a, b, x | _, y | _, z | _, ⟨⟩⟩ := args <;> cases hp
    exact ⟨_, rfl, (hasGram_outerInner
      (hasGram_phasedRotation (cos_mul_self_add (x - y)) (Cplx.conj_cis_mul_cis (-z)))
      (hasGram_phasedRotation (cos_mul_self_add (x + y)) (Cplx.conj_cis_mul_cis z))).isUnitary⟩
  | qsim =>
    obtain ⟨a, b, x | _, y | _, z | _, ⟨⟩⟩ := args <;> cases hp
    exact ⟨_, rfl, (hasGram_outerInner
      (hasGram_phasedRotation (cos_mul_self_add (x - y)) (Cplx.conj_cis_mul_cis (-z)))
      (hasGram_phasedFlip (cos_mul_self_add (x + y)) (Cplx.conj_cis_mul_cis z))).isUnitary⟩
  | fsim =>
    obtain ⟨a, b, t | _, x | _, delta | _, ⟨⟩⟩ := args <;> cases hp
    have hflip := hasGram_phasedFlip (cos_mul_self_add t) hone
    rw [one_mul, one_mul] at hflip
    exact ⟨_, rfl, (hasGram_outerInner
      (hasGram_pairing (cos_mul_self_add delta) (Cplx.conj_cis_mul_cis (-x))) hflip).isUnitary⟩
  | bogoliubov =>
    obtain ⟨a, b, re | _, im | _, ⟨⟩⟩ := args <;> cases hp
    exact ⟨_, rfl, (hasGram_outerInner (hasGram_rotation (cos_mul_self_add _)
      (Cplx.conj_cis_mul_cis (Scalar.atan2 im re))) (hasGram_phases hone hone)).isUnitary⟩
  | pmInteraction =>
    obtain ⟨a, b, t | _, ⟨⟩⟩ := args <;> cases hp
    exact ⟨_, rfl, hasGram_outerInner_unit (hasGram_rotationX (cos_mul_self_add t))⟩
  | complexPMInteraction =>
    obtain ⟨a, b, re | _, im | _, ⟨⟩⟩ := args <;> cases hp
    exact ⟨_, rfl, hasGram_outerInner_unit (hasGram_rotation (cos_mul_self_add _)
      (Cplx.conj_cis_mul_cis (Scalar.atan2 im re)))⟩
  | phaseShiftedControlledZ =>
    obtain ⟨a, b, phi | _, ⟨⟩⟩ := args <;> cases hp
    have hphase := Cplx.conj_cis_mul_cis phi
    have hlast : (-Cplx.cis phi * Cplx.cis phi).conj * (-Cplx.cis phi * Cplx.cis phi) = 1 := by
      grind
    refine ⟨_, rfl, isUnitary_diagonalOf (n := 2) rfl ?_⟩
    simpa [hphase] using hlast
  | phaseShiftedControlledPhase =>
    obtain ⟨a, b, theta | _, phi | _, ⟨⟩⟩ := args <;> cases hp
    refine ⟨_, rfl, isUnitary_diagonalOf (n := 2) rfl ?_⟩
    simp [Cplx.conj_cis_mul_cis]

end

end QuantumGates
