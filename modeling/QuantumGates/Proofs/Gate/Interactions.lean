-- The interactions of two qubits. In exact arithmetic the matrix of the general interaction, with
-- one coupling for each axis, is made of two blocks, a phase and a rotation in each. The product of
-- two of them adds the couplings, and the other closed forms, each with a convention of its own for
-- its angle, are this matrix for couplings that are multiples of the angle. The shifted controlled
-- phases are products of a phase on each qubit and one on both.
import QuantumGates.Proofs.Gate.GivensPowers

namespace QuantumGates

open CMat Finset

/-! ## Blocks -/

/-- A rotation around the first axis with a phase before it. -/
noncomputable def phasedRotation (phase angle : ℝ) : List (List (Cplx ℝ)) :=
  [[Cplx.cis phase * real (Real.cos angle), Cplx.cis phase * minusI (Real.sin angle)],
    [Cplx.cis phase * minusI (Real.sin angle), Cplx.cis phase * real (Real.cos angle)]]

theorem phasedRotation_zero (angle : ℝ) :
    phasedRotation 0 angle = rotationX (Real.cos angle) (Real.sin angle) := by
  unfold phasedRotation
  rw [Cplx.cis_zero]
  simp only [one_mul]
  rfl

theorem rotationX_zero : rotationX (Real.cos 0) (Real.sin 0) = unitRows := by
  simp [rotationX, unitRows, Cplx.minusI_eq]

/-- Blocks with the same places multiply by themselves. -/
theorem outerInner_mul (a b c d a' b' c' d' w x y z w' x' y' z' : Cplx ℝ) :
    (outerInner [[a, b], [c, d]] [[a', b'], [c', d']]).mul
      (outerInner [[w, x], [y, z]] [[w', x'], [y', z']]) =
    outerInner [[a * w + b * y, a * x + b * z], [c * w + d * y, c * x + d * z]]
      [[a' * w' + b' * y', a' * x' + b' * z'], [c' * w' + d' * y', c' * x' + d' * z']] := by
  simp only [outerInner_eq_table]
  refine Mat.IsSquare.ext (n := 4) ⟨rfl, rfl⟩ ⟨rfl, rfl⟩ fun r hr j hj => ?_
  rw [Mat.get_mul (n := 4) ⟨rfl, rfl⟩ ⟨rfl, rfl⟩ hr hj]
  simp only [sum_range_succ, sum_range_zero, zero_add]
  interval_cases r <;> interval_cases j <;> simp [get_table]

/-! ## The interaction with a coupling for each axis -/

/-- The matrix of the interaction of two qubits: equal states are rotated by the difference of the
first two couplings and unequal ones by their sum, and the third coupling turns one pair back and
the other one forth. -/
noncomputable def spinMatrix (x y z : ℝ) : CMat ℝ :=
  outerInner (phasedRotation (-z) (x - y)) (phasedRotation z (x + y))

/-- The couplings of two interactions add up. -/
theorem spinMatrix_mul (x y z x' y' z' : ℝ) :
    (spinMatrix x y z).mul (spinMatrix x' y' z') = spinMatrix (x + x') (y + y') (z + z') := by
  have hi := Cplx.i_mul_i
  have hcos (p p' s s' : ℝ) :
      Cplx.cis p * real (Real.cos s) * (Cplx.cis p' * real (Real.cos s')) +
        Cplx.cis p * minusI (Real.sin s) * (Cplx.cis p' * minusI (Real.sin s')) =
      Cplx.cis (p + p') * real (Real.cos (s + s')) := by
    rw [Real.cos_add, sub_eq_add_neg, Cplx.real_add, Cplx.real_neg, Cplx.real_mul, Cplx.real_mul,
      Cplx.cis_add]
    grind
  have hsin (p p' s s' : ℝ) :
      Cplx.cis p * real (Real.cos s) * (Cplx.cis p' * minusI (Real.sin s')) +
        Cplx.cis p * minusI (Real.sin s) * (Cplx.cis p' * real (Real.cos s')) =
      Cplx.cis (p + p') * minusI (Real.sin (s + s')) := by
    simp only [Real.sin_add, Cplx.minusI_eq, Cplx.real_add, Cplx.real_mul, Cplx.cis_add]
    ring
  have hcos' (p p' s s' : ℝ) := (add_comm _ _).trans (hcos p p' s s')
  have hsin' (p p' s s' : ℝ) := (add_comm _ _).trans (hsin p p' s s')
  have hphase : -z + -z' = -(z + z') := by ring
  have hdifference : x - y + (x' - y') = x + x' - (y + y') := by ring
  have hsum : x + y + (x' + y') = x + x' + (y + y') := by ring
  unfold spinMatrix phasedRotation
  rw [outerInner_mul]
  simp only [hcos, hsin, hcos', hsin', hphase, hdifference, hsum]

/-- Without the third coupling there are no phases. -/
theorem spinMatrix_plane (x y : ℝ) :
    spinMatrix x y 0 = outerInner (rotationX (Real.cos (x - y)) (Real.sin (x - y)))
      (rotationX (Real.cos (x + y)) (Real.sin (x + y))) := by
  unfold spinMatrix
  rw [neg_zero, phasedRotation_zero, phasedRotation_zero]

/-- Equal couplings of the first two axes rotate the unequal states only. -/
theorem spinMatrix_equal (x : ℝ) :
    spinMatrix x x 0 = outerInner unitRows (rotationX (Real.cos (2 * x)) (Real.sin (2 * x))) := by
  rw [spinMatrix_plane, sub_self, rotationX_zero, two_mul]

/-- The coupling of the first axis alone is a rotation with respect to both qubits. -/
theorem spinMatrix_first (y : ℝ) : spinMatrix (y / 2) 0 0 = complementRotation 2 y := by
  rw [spinMatrix_plane, sub_zero, add_zero, rotationX, outerInner_eq_table]
  refine Mat.IsSquare.ext (n := 4) ⟨rfl, rfl⟩ ⟨rfl, rfl⟩ fun r hr c hc => ?_
  rw [get_complementRotation (k := 2) y hr hc, get_table hr hc]
  interval_cases r <;> interval_cases c <;> simp [Cplx.minusI_eq, Cplx.imaginary_eq]

/-- The coupling of the third axis alone is a phase by parity. -/
theorem spinMatrix_third (y : ℝ) :
    spinMatrix 0 0 (y / 2) = Mat.diagonal 4 fun k => parityWeight y (bitCount k) := by
  have heven : parityWeight y 0 = Cplx.cis (-(y / 2)) := by
    rw [← fraction_one_two_mul]
    rfl
  have hodd : parityWeight y 1 = Cplx.cis (y / 2) := by
    rw [← fraction_one_two_mul]
    rfl
  have hboth : parityWeight y 2 = Cplx.cis (-(y / 2)) := (parityWeight_mod y 2).symm.trans heven
  unfold spinMatrix phasedRotation
  rw [outerInner_eq_table]
  refine Mat.IsSquare.ext (n := 4) ⟨rfl, rfl⟩ ⟨rfl, rfl⟩ fun r hr c hc => ?_
  rw [Mat.get_diagonal _ hr hc, get_table hr hc]
  interval_cases r <;> interval_cases c <;>
    simp [Cplx.minusI_eq, show bitCount 0 = 0 from rfl, show bitCount 1 = 1 from rfl,
      show bitCount 2 = 1 from rfl, show bitCount 3 = 2 from rfl, heven, hodd, hboth]

/-! ## Real couplings as complex ones -/

/-- The rotation by the magnitude of a real coupling, turned by its angle, is the rotation by the
coupling itself: below nought the angle is half a turn, which takes the sign of the sine back. -/
theorem couplingRotation_real (t : ℝ) :
    couplingRotation t 0 = .ok (rotationX (Real.cos t) (Real.sin t)) := by
  have hmagnitude : √(t * t + 0 * 0) = |t| := by
    rw [mul_zero, add_zero, Real.sqrt_mul_self_eq_abs]
  show Except.ok (CMat.rotation (Real.cos √(t * t + 0 * 0)) (Real.sin √(t * t + 0 * 0))
    (Cplx.cis (Complex.arg ⟨t, 0⟩))) = _
  rw [hmagnitude, rotationX_eq]
  rcases le_or_gt 0 t with ht | ht
  · have harg : Complex.arg ⟨t, 0⟩ = 0 := Complex.arg_ofReal_of_nonneg ht
    rw [abs_of_nonneg ht, harg, Cplx.cis_zero]
  · have harg : Complex.arg ⟨t, 0⟩ = Real.pi := Complex.arg_ofReal_of_neg ht
    rw [abs_of_neg ht, harg, Cplx.cis_pi, Real.cos_neg, Real.sin_neg, rotation_neg_one,
      ← rotationX_eq, rotationX]
    simp [Cplx.minusI_eq, Cplx.imaginary_eq]

/-! ## Phases on both qubits -/

/-- The phases of both qubits and that of the state 11 come together there. -/
theorem phases_mul (θ φ : ℝ) :
    ((phaseGate 2 0 φ).mul (phaseGate 2 1 φ)).mul (diagonalOf [1, 1, 1, Cplx.cis θ]) =
      diagonalOf [1, Cplx.cis φ, Cplx.cis φ, Cplx.cis (2 * φ + θ)] := by
  have hboth := (actsOnBasis_phaseGate φ (n := 2) (q := 0) (by decide)).mul
    (actsOnBasis_phaseGate φ (n := 2) (q := 1) (by decide))
  have hlast := Mat.actsOnBasis_diagonal 2 fun k => ([1, 1, 1, Cplx.cis θ][k]?).getD 0
  refine (hboth.mul hlast).eq_diagonal (fun _ _ => rfl) fun k hk => ?_
  have hsum : Cplx.cis (2 * φ + θ) = Cplx.cis φ * Cplx.cis φ * Cplx.cis θ := by
    rw [two_mul, Cplx.cis_add, Cplx.cis_add]
  interval_cases k <;> simp [bitAt, hsum]

/-! ## The closed forms -/

section

variable (value : Param ℝ → Except (Fault ℝ) ℝ)

/-- The interaction with exchanged columns is followed by an exchange of the qubits. -/
theorem matrix_qsim {a b : ℕ} {x y z : Param ℝ} {x' y' z' : ℝ} (hx : value x = .ok x')
    (hy : value y = .ok y') (hz : value z = .ok z') :
    TwoKind.qsim.matrix value (a, b, x, y, z, ()) =
      .ok ((spinMatrix x' y' z').mul (outerInner unitRows flipRows)) := by
  show (do
    let (outer, c, s) ← interaction (← value x) (← value y) (← value z)
    return outerInner outer [[s, c], [c, s]]) = _
  rw [hx, hy, hz]
  unfold spinMatrix phasedRotation unitRows flipRows
  rw [outerInner_mul]
  simp only [mul_one, mul_zero, add_zero, zero_add]
  rfl

theorem halfCosSin_eq {theta : Param ℝ} {y : ℝ} (hy : value theta = .ok y) :
    halfCosSin value theta = .ok (Real.cos (y / 2), Real.sin (y / 2)) := by
  have hhalf : y / (Scalar.whole 2 : ℝ) = y / 2 := by rw [Exact.whole_eq, Nat.cast_ofNat]
  unfold halfCosSin
  rw [hy, ← hhalf]
  rfl

theorem matrix_variableMSXX {a b : ℕ} {theta : Param ℝ} {y : ℝ} (hy : value theta = .ok y) :
    TwoKind.variableMSXX.matrix value (a, b, theta, ()) = .ok (spinMatrix (y / 2) 0 0) := by
  show (do
    let (c, s) ← halfCosSin value theta
    return outerInner (rotationX c s) (rotationX c s)) = _
  rw [halfCosSin_eq value hy, spinMatrix_plane, sub_zero, add_zero]
  rfl

/-- The rotation of the unequal states has half the angle and the opposite sign. -/
theorem matrix_xy {a b : ℕ} {theta : Param ℝ} {y : ℝ} (hy : value theta = .ok y) :
    TwoKind.xy.matrix value (a, b, theta, ()) = .ok (spinMatrix (-y / 4) (-y / 4) 0) := by
  have hangle : 2 * (-y / 4) = -(y / 2) := by ring
  show (do
    let (c, s) ← halfCosSin value theta
    return outerInner unitRows [[real c, imaginary 1 * real s], [imaginary 1 * real s, real c]]) = _
  rw [halfCosSin_eq value hy, spinMatrix_equal, hangle, Real.cos_neg, Real.sin_neg, rotationX]
  simp only [Cplx.minusI_eq, Cplx.imaginary_eq, Cplx.real_neg, Cplx.real_one, mul_neg, neg_neg,
    mul_one]
  rfl

theorem matrix_pmInteraction {a b : ℕ} {t : Param ℝ} {y : ℝ} (hy : value t = .ok y) :
    TwoKind.pmInteraction.matrix value (a, b, t, ()) = .ok (spinMatrix (y / 2) (y / 2) 0) := by
  show (do
    let (c, s) ← cosSinOf value t
    return outerInner unitRows (rotationX c s)) = _
  unfold cosSinOf
  rw [hy, spinMatrix_equal, mul_div_cancel₀ y two_ne_zero]
  rfl

theorem matrix_complexPMInteraction {a b : ℕ} {re im : Param ℝ} {y : ℝ} (hre : value re = .ok y)
    (him : value im = .ok 0) :
    TwoKind.complexPMInteraction.matrix value (a, b, re, im, ()) =
      .ok (spinMatrix (y / 2) (y / 2) 0) := by
  show (do return outerInner unitRows (← couplingRotation (← value re) (← value im))) = _
  rw [hre, him, spinMatrix_equal, mul_div_cancel₀ y two_ne_zero]
  show (do return outerInner unitRows (← couplingRotation y 0)) = _
  rw [couplingRotation_real]
  rfl

theorem matrix_phaseShiftedControlledPhase {a b : ℕ} {theta phi : Param ℝ} {θ φ : ℝ}
    (htheta : value theta = .ok θ) (hphi : value phi = .ok φ) :
    TwoKind.phaseShiftedControlledPhase.matrix value (a, b, theta, phi, ()) =
      .ok (diagonalOf [1, Cplx.cis φ, Cplx.cis φ, Cplx.cis (2 * φ + θ)]) := by
  have htwo : (Scalar.whole 2 : ℝ) = 2 := by rw [Exact.whole_eq, Nat.cast_ofNat]
  show (do
    let phi ← value phi
    let phase := Cplx.cis phi
    let last := Cplx.cis (Scalar.whole 2 * phi + (← value theta))
    return diagonalOf [1, phase, phase, last]) = _
  rw [htheta, hphi, ← htwo]
  rfl

end

/-- The closed forms of the gates on two qubits agree in exact arithmetic, for all real parameters.
The product of two interactions adds their couplings, the one with exchanged columns is followed
by an exchange of the qubits, and the rotations, each with its own convention for the angle, are
interactions. The shifted controlled phases are a phase on each qubit and one on both. -/
theorem closed_forms_agree (evaluate : String → Except (Fault ℝ) ℝ) (tolerance : ℝ) (a b : ℕ) :
    let matrix (op : Operation (Param ℝ)) := op.matrix? (Param.value evaluate) tolerance
    let spin (x y z : ℝ) : Operation (Param ℝ) :=
      ⟨.two .spinInteraction, a, b, .literal x, .literal y, .literal z, ()⟩
    (∀ x y z x' y' z', ∃ u v, matrix (spin x y z) = some (.ok u) ∧
      matrix (spin x' y' z') = some (.ok v) ∧
      matrix (spin (x + x') (y + y') (z + z')) = some (.ok (u.mul v))) ∧
    (∀ x y z, ∃ u swap, matrix (spin x y z) = some (.ok u) ∧
      matrix ⟨.two .swap, a, b, ()⟩ = some (.ok swap) ∧
      matrix ⟨.two .qsim, a, b, .literal x, .literal y, .literal z, ()⟩ =
        some (.ok (u.mul swap))) ∧
    (∀ θ, ∃ u, matrix (spin (θ / 2) 0 0) = some (.ok u) ∧
      matrix ⟨.two .variableMSXX, a, b, .literal θ, ()⟩ = some (.ok u) ∧
      matrix ⟨.register .ms, [a, b], .literal θ, ()⟩ = some (.ok u)) ∧
    (∀ θ, ∃ u, matrix (spin 0 0 (θ / 2)) = some (.ok u) ∧
      matrix ⟨.register .zz, [a, b], .literal θ, ()⟩ = some (.ok u)) ∧
    (∀ θ, ∃ u, matrix (spin (-θ / 4) (-θ / 4) 0) = some (.ok u) ∧
      matrix ⟨.two .xy, a, b, .literal θ, ()⟩ = some (.ok u)) ∧
    (∀ t, ∃ u, matrix (spin (t / 2) (t / 2) 0) = some (.ok u) ∧
      matrix ⟨.two .pmInteraction, a, b, .literal t, ()⟩ = some (.ok u) ∧
      matrix ⟨.two .complexPMInteraction, a, b, .literal t, .literal 0, ()⟩ = some (.ok u)) ∧
    (∀ θ φ, ∃ shift last first second u,
      (∀ q, matrix ⟨.single .phaseShiftState1, q, .literal φ, ()⟩ = some (.ok shift)) ∧
      matrix ⟨.two .controlledPhaseShift, a, b, .literal θ, ()⟩ = some (.ok last) ∧
      (embed shift [0] 2 : Except (Fault ℝ) (CMat ℝ)) = .ok first ∧
      (embed shift [1] 2 : Except (Fault ℝ) (CMat ℝ)) = .ok second ∧
      u = (first.mul second).mul last ∧
      matrix ⟨.two .phaseShiftedControlledPhase, a, b, .literal θ, .literal φ, ()⟩ =
        some (.ok u)) ∧
    ∀ φ, ∃ u, matrix ⟨.two .phaseShiftedControlledZ, a, b, .literal φ, ()⟩ = some (.ok u) ∧
      matrix ⟨.two .phaseShiftedControlledPhase, a, b, .literal Real.pi, .literal φ, ()⟩ =
        some (.ok u) := by
  intro matrix spin
  have hspin (x y z : ℝ) : matrix (spin x y z) = some (.ok (spinMatrix x y z)) := rfl
  refine ⟨?products, ?exchanged, ?first, ?third, ?plane, ?coupling, ?phases, ?sign⟩
  case products =>
    intro x y z x' y' z'
    exact ⟨_, _, hspin x y z, hspin x' y' z', by rw [hspin, spinMatrix_mul]⟩
  case exchanged =>
    intro x y z
    exact ⟨_, _, hspin x y z, rfl, congrArg some (matrix_qsim _ rfl rfl rfl)⟩
  case first =>
    intro θ
    refine ⟨_, hspin _ _ _, congrArg some (matrix_variableMSXX _ rfl), ?_⟩
    rw [spinMatrix_first]
    exact congrArg some (matrix_flipRotation rfl)
  case third =>
    intro θ
    refine ⟨_, hspin _ _ _, ?_⟩
    rw [spinMatrix_third]
    exact congrArg some (matrix_parityRotation rfl)
  case plane =>
    intro θ
    exact ⟨_, hspin _ _ _, congrArg some (matrix_xy _ rfl)⟩
  case coupling =>
    intro t
    exact ⟨_, hspin _ _ _, congrArg some (matrix_pmInteraction _ rfl),
      congrArg some (matrix_complexPMInteraction _ rfl rfl)⟩
  case phases =>
    intro θ φ
    have hlift (q : ℕ) (hq : q < 2) :
        (embed (diagonalOf [1, Cplx.cis φ]) [q] 2 : Except (Fault ℝ) (CMat ℝ)) =
          .ok (phaseGate 2 q φ) :=
      embed_eq_ok ⟨rfl, rfl⟩ (List.nodup_singleton q) (by simpa using hq)
    refine ⟨_, _, _, _, _, fun _ => rfl, rfl, hlift 0 (by decide), hlift 1 (by decide), rfl, ?_⟩
    have hvalue (x : ℝ) : Param.value evaluate (.literal x) = .ok x := rfl
    have hgate := matrix_phaseShiftedControlledPhase (a := a) (b := b) (Param.value evaluate)
      (hvalue θ) (hvalue φ)
    rw [← phases_mul] at hgate
    exact congrArg some hgate
  case sign =>
    intro φ
    refine ⟨_, rfl, ?_⟩
    have hlast : Cplx.cis (2 * φ + Real.pi) = -Cplx.cis φ * Cplx.cis φ := by
      rw [two_mul, Cplx.cis_add, Cplx.cis_add, Cplx.cis_pi]
      ring
    have hvalue (x : ℝ) : Param.value evaluate (.literal x) = .ok x := rfl
    have hgate := matrix_phaseShiftedControlledPhase (a := a) (b := b) (Param.value evaluate)
      (hvalue Real.pi) (hvalue φ)
    rw [hlast] at hgate
    exact congrArg some hgate

end QuantumGates
