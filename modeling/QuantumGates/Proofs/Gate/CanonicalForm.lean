-- The two descriptions of a gate on one qubit. Its matrix is written out entry by entry, and its
-- canonical values make a matrix with a phase of its own. In exact arithmetic the two agree for
-- every named gate: it is a diagonal of phases, phases beside the diagonal, or a rotation, and the
-- phase of the canonical values cancels or doubles in each entry.
import QuantumGates.Proofs.Circuit.ParityRotation
import QuantumGates.Proofs.Gate.SmallGates
import QuantumGates.Proofs.Gate.SymbolicProduct

namespace QuantumGates

open CMat

/-! ## Tables on one qubit -/

section

variable (k a b c d : Cplx ℝ)

theorem scale_table : Mat.scale k (table [[a, b], [c, d]]) =
    table [[k * a, k * b], [k * c, k * d]] := by
  refine Mat.IsSquare.ext (n := 2) ⟨rfl, rfl⟩ ⟨rfl, rfl⟩ fun r hr j hj => ?_
  rw [get_scale hr hj, get_table hr hj, get_table hr hj]
  interval_cases r <;> interval_cases j <;> rfl

theorem table_mul (w x y z : Cplx ℝ) :
    (table [[a, b], [c, d]]).mul (table [[w, x], [y, z]]) =
      table [[a * w + b * y, a * x + b * z], [c * w + d * y, c * x + d * z]] := by
  refine Mat.IsSquare.ext (n := 2) ⟨rfl, rfl⟩ ⟨rfl, rfl⟩ fun r hr j hj => ?_
  rw [Mat.get_mul (n := 2) ⟨rfl, rfl⟩ ⟨rfl, rfl⟩ hr hj, Finset.sum_range_succ,
    Finset.sum_range_one]
  interval_cases r <;> interval_cases j <;> simp [get_table]

theorem diagonalOf_two : diagonalOf [a, d] = table [[a, 0], [0, d]] := by
  refine Mat.IsSquare.ext (n := 2) ⟨rfl, rfl⟩ ⟨rfl, rfl⟩ fun r hr j hj => ?_
  refine (Mat.get_diagonal (n := 2) _ hr hj).trans ?_
  rw [get_table hr hj]
  interval_cases r <;> interval_cases j <;> rfl

theorem identity_two : (Mat.identity 2 : CMat ℝ) = table [[1, 0], [0, 1]] := by
  refine Mat.IsSquare.ext (n := 2) ⟨rfl, rfl⟩ ⟨rfl, rfl⟩ fun r hr j hj => ?_
  rw [Mat.get_identity hr hj, get_table hr hj]
  interval_cases r <;> interval_cases j <;> rfl

end

/-! ## Parts of a turn -/

theorem partOfPi_eq (b : ℕ) : (partOfPi b : ℝ) = Real.pi / b := rfl

theorem partOfPi_add_self (b : ℕ) : (partOfPi (2 * b) + partOfPi (2 * b) : ℝ) = partOfPi b := by
  rw [partOfPi_eq, partOfPi_eq, Nat.cast_mul, Nat.cast_ofNat, ← div_div, div_right_comm, add_halves]

theorem cos_partOfPi_two : Real.cos (partOfPi 2) = 0 := by
  rw [partOfPi_eq, Nat.cast_ofNat, Real.cos_pi_div_two]

theorem sin_partOfPi_two : Real.sin (partOfPi 2) = 1 := by
  rw [partOfPi_eq, Nat.cast_ofNat, Real.sin_pi_div_two]

theorem cis_partOfPi_two : Cplx.cis (partOfPi 2 : ℝ) = imaginary 1 := by
  rw [Cplx.cis_eq, cos_partOfPi_two, sin_partOfPi_two]
  rfl

/-- One over the square root of two is the cosine of an eighth of a turn, and its sine. -/
theorem cos_partOfPi_four : Real.cos (partOfPi 4) = 1 / √2 := by
  rw [partOfPi_eq, Nat.cast_ofNat, Real.cos_pi_div_four,
    div_eq_div_iff two_ne_zero (by positivity), one_mul]
  exact Real.mul_self_sqrt (by norm_num)

theorem sin_partOfPi_four : Real.sin (partOfPi 4) = 1 / √2 := by
  rw [← cos_partOfPi_four, partOfPi_eq, Nat.cast_ofNat, Real.cos_pi_div_four,
    Real.sin_pi_div_four]

namespace Canonical

/-! ## The shapes of a canonical form -/

/-- Canonical values as parameters. -/
def literals {R : Type} (c : Canonical R) : Canonical (Param R) :=
  ⟨.literal c.alphaRe, .literal c.alphaIm, .literal c.betaRe, .literal c.betaIm, .literal c.phase⟩

/-- The entries of the matrix. -/
theorem form_eq_table {ar ai br bi p : ℝ} {w x y z : Cplx ℝ}
    (hw : Cplx.cis p * ⟨ar, ai⟩ = w) (hx : Cplx.cis p * ⟨-br, bi⟩ = x)
    (hy : Cplx.cis p * ⟨br, bi⟩ = y) (hz : Cplx.cis p * ⟨ar, -ai⟩ = z) :
    form ⟨ar, ai, br, bi, p⟩ = table [[w, x], [y, z]] := by
  subst hw hx hy hz
  exact scale_table _ _ _ _ _

/-- A phase for each of the two states. -/
theorem form_phases (x p : ℝ) : form ⟨Real.cos x, Real.sin x, 0, 0, p⟩ =
    table [[Cplx.cis (p + x), 0], [0, Cplx.cis (p - x)]] := by
  refine form_eq_table ?_ ?_ ?_ ?_
  · rw [Cplx.cis_add]
    rfl
  · ext <;> simp
  · ext <;> simp
  · rw [sub_eq_add_neg, Cplx.cis_add, ← Cplx.conj_cis]
    rfl

theorem norm_phases (x p : ℝ) : norm ⟨Real.cos x, Real.sin x, 0, 0, p⟩ = 1 := by
  simp [norm, cos_mul_self_add]

/-- An exchange of the two states with a phase for each. -/
theorem form_flip (x : ℝ) : form ⟨0, 0, Real.sin x, -Real.cos x, partOfPi 2⟩ =
    table [[0, (Cplx.cis x).conj], [Cplx.cis x, 0]] := by
  refine form_eq_table ?_ ?_ ?_ ?_ <;> rw [cis_partOfPi_two] <;>
    ext <;> simp [imaginary, Cplx.cis_eq, Cplx.conj]

theorem norm_flip (x : ℝ) : norm ⟨0, 0, Real.sin x, -Real.cos x, partOfPi 2⟩ = 1 := by
  have hx := cos_mul_self_add x
  simp only [norm]
  linear_combination hx

section

variable {c s : ℝ}

/-- A rotation with a phase between the two states. -/
theorem form_rotation (c s x : ℝ) : form ⟨c, 0, s * Real.sin x, -(s * Real.cos x), 0⟩ =
    table (CMat.rotation c s (Cplx.cis x)) := by
  refine form_eq_table ?_ ?_ ?_ ?_ <;> rw [Cplx.cis_zero, one_mul] <;>
    ext <;> simp [minusI, real, Cplx.ofReal, Cplx.cis_eq, Cplx.conj]

theorem norm_rotation (h : c * c + s * s = 1) (x : ℝ) :
    norm ⟨c, 0, s * Real.sin x, -(s * Real.cos x), 0⟩ = 1 := by
  have hx := cos_mul_self_add x
  simp only [norm]
  linear_combination h + s ^ 2 * hx

theorem form_rotationX (c s : ℝ) : form ⟨c, 0, 0, -s, 0⟩ = table (rotationX c s) := by
  have h := form_rotation c s 0
  rw [Real.sin_zero, Real.cos_zero, mul_zero, mul_one, Cplx.cis_zero] at h
  rw [h, rotationX_eq]

theorem norm_rotationX (h : c * c + s * s = 1) : norm ⟨c, 0, 0, -s, 0⟩ = 1 := by
  simp only [norm]
  linear_combination h

theorem form_rotationY (c s : ℝ) : form ⟨c, 0, s, 0, 0⟩ =
    table [[real c, real (-s)], [real s, real c]] := by
  refine form_eq_table ?_ ?_ ?_ ?_ <;> rw [Cplx.cis_zero, one_mul] <;>
    ext <;> simp [real, Cplx.ofReal]

theorem norm_rotationY (h : c * c + s * s = 1) : norm ⟨c, 0, s, 0, 0⟩ = 1 := by
  simp only [norm]
  linear_combination h

end

theorem form_hadamard (f : ℝ) : form ⟨0, -f, 0, -f, partOfPi 2⟩ =
    Mat.scale (real f) (table [[1, 1], [1, -1]]) := by
  rw [scale_table]
  refine form_eq_table ?_ ?_ ?_ ?_ <;> rw [cis_partOfPi_two] <;>
    ext <;> simp [imaginary, real, Cplx.ofReal]

/-- A quarter of a turn, scaled by one over the square root of two. -/
theorem form_quarterTurn (f x : ℝ) : form ⟨f, 0, Real.sin x * f, -(Real.cos x * f), 0⟩ =
    Mat.scale (real f) (table [[1, minusI 1 * (Cplx.cis x).conj], [minusI 1 * Cplx.cis x, 1]]) := by
  rw [mul_comm (Real.sin x), mul_comm (Real.cos x), form_rotation, scale_table]
  have hminus : minusI f = real f * minusI 1 := by
    ext <;> simp [minusI, real, Cplx.ofReal]
  unfold CMat.rotation
  rw [hminus, mul_assoc, mul_assoc, mul_one]

end Canonical

/-! ## Every gate on one qubit -/

section

variable (evaluate : String → Except (Fault ℝ) ℝ) {tolerance : ℝ}

/-- The canonical values of a gate have norm one, and the matrix that they make is its own. -/
structure SingleKind.HasForm (tolerance : ℝ) (k : SingleKind) (args : Args (Param ℝ) k.fields)
    (c : Canonical ℝ) : Prop where
  values : k.canonical args = .ok c.literals
  norm : c.norm = 1
  matrix : k.matrix (Param.value evaluate) tolerance args = .ok c.form

/-- Gates that give a phase to each of the two states. -/
theorem SingleKind.hasForm_phases {k : SingleKind} {args : Args (Param ℝ) k.fields} {x p : ℝ}
    (hvalues : k.canonical args =
      .ok (Canonical.literals ⟨Real.cos x, Real.sin x, 0, 0, p⟩))
    (hmatrix : k.matrix (Param.value evaluate) tolerance args =
      .ok (table [[Cplx.cis (p + x), 0], [0, Cplx.cis (p - x)]])) :
    k.HasForm evaluate tolerance args ⟨Real.cos x, Real.sin x, 0, 0, p⟩ where
  values := hvalues
  norm := Canonical.norm_phases x p
  matrix := by rw [hmatrix, Canonical.form_phases]

theorem SingleKind.exists_form (ht : 0 ≤ tolerance) (k : SingleKind)
    (args : Args (Param ℝ) k.fields) (hk : k ≠ .general)
    (hp : Operation.isParametrized ⟨.single k, args⟩ = false) :
    ∃ c, k.HasForm evaluate tolerance args c := by
  have hcosine := cosine_mul_self_add
  have hopposite : SingleKind.matrix.cosine * SingleKind.matrix.cosine +
      -SingleKind.matrix.cosine * -SingleKind.matrix.cosine = (1 : ℝ) := by
    rw [neg_mul_neg]
    exact hcosine
  have hroot := invRootTwo_mul_self_add
  have heighth : (partOfPi 4 + partOfPi 4 : ℝ) = partOfPi 2 := partOfPi_add_self 2
  have hsixteenth : (partOfPi 8 + partOfPi 8 : ℝ) = partOfPi 4 := partOfPi_add_self 4
  have hback : ∀ b : ℕ, -Scalar.pi / Scalar.whole b = -(partOfPi b : ℝ) := fun b => neg_div _ _
  cases k with
  | general => exact absurd rfl hk
  | identity =>
    have hform := Canonical.form_phases 0 0
    have hnorm := Canonical.norm_phases 0 0
    rw [Real.cos_zero, Real.sin_zero] at hform hnorm
    rw [add_zero, sub_zero, Cplx.cis_zero, ← identity_two] at hform
    exact ⟨_, rfl, hnorm, congrArg Except.ok hform.symm⟩
  | rotateX =>
    obtain ⟨q, theta | _, ⟨⟩⟩ := args <;> cases hp
    refine ⟨⟨Real.cos (theta / 2), 0, 0, -Real.sin (theta / 2), 0⟩, ?_,
      Canonical.norm_rotationX (cos_mul_self_add _), ?_⟩
    · rw [canonical, halfAngle_literal]
      rfl
    · rw [Canonical.form_rotationX]
      rfl
  | rotateY =>
    obtain ⟨q, theta | _, ⟨⟩⟩ := args <;> cases hp
    refine ⟨⟨Real.cos (theta / 2), 0, Real.sin (theta / 2), 0, 0⟩, ?_,
      Canonical.norm_rotationY (cos_mul_self_add _), ?_⟩
    · rw [canonical, halfAngle_literal]
      rfl
    · rw [Canonical.form_rotationY]
      rfl
  | rotateZ =>
    obtain ⟨q, theta | _, ⟨⟩⟩ := args <;> cases hp
    refine ⟨_, hasForm_phases (x := -(theta / 2)) (p := 0) evaluate ?_ ?_⟩
    · rw [canonical, halfAngle_literal, Real.cos_neg, Real.sin_neg]
      rfl
    · rw [zero_add, zero_sub, neg_neg, ← Cplx.conj_cis, ← fraction_one_two_mul]
      rfl
  | rotateXY =>
    obtain ⟨q, theta | _, phi | _, ⟨⟩⟩ := args <;> cases hp
    refine ⟨⟨Real.cos (theta / 2), 0, Real.sin (theta / 2) * Real.sin phi,
      -(Real.sin (theta / 2) * Real.cos phi), 0⟩, ?_,
      Canonical.norm_rotation (cos_mul_self_add _) _, ?_⟩
    · rw [canonical, halfAngle_literal]
      rfl
    · rw [Canonical.form_rotation]
      rfl
  | rotateSpherical =>
    obtain ⟨q, theta | _, polar | _, azimuth | _, ⟨⟩⟩ := args <;> cases hp
    refine ⟨_, ?_, Canonical.norm_spherical (theta / 2) polar azimuth,
      matrix_rotateSpherical evaluate ht q theta polar azimuth⟩
    rw [canonical, halfAngle_literal]
    rfl
  | phaseShiftState0 =>
    obtain ⟨q, theta | _, ⟨⟩⟩ := args <;> cases hp
    refine ⟨_, hasForm_phases (x := theta / 2) (p := theta / 2) evaluate ?_ ?_⟩
    · rw [canonical, halfAngle_literal, half_literal]
      rfl
    · rw [add_halves, sub_self, Cplx.cis_zero, ← diagonalOf_two]
      rfl
  | phaseShiftState1 =>
    obtain ⟨q, theta | _, ⟨⟩⟩ := args <;> cases hp
    refine ⟨_, hasForm_phases (x := -(theta / 2)) (p := theta / 2) evaluate ?_ ?_⟩
    · rw [canonical, halfAngle_literal, half_literal, Real.cos_neg, Real.sin_neg]
      rfl
    · rw [sub_neg_eq_add, add_halves, add_neg_cancel, Cplx.cis_zero, ← diagonalOf_two]
      rfl
  | pauliX =>
    have hform := Canonical.form_flip 0
    have hnorm := Canonical.norm_flip 0
    rw [Real.sin_zero, Real.cos_zero] at hform hnorm
    rw [Cplx.cis_zero, Cplx.conj_one] at hform
    exact ⟨_, rfl, hnorm, congrArg Except.ok hform.symm⟩
  | pauliY =>
    have hform := Canonical.form_flip (partOfPi 2)
    have hnorm := Canonical.norm_flip (partOfPi 2)
    rw [sin_partOfPi_two, cos_partOfPi_two, neg_zero] at hform hnorm
    rw [cis_partOfPi_two] at hform
    refine ⟨_, rfl, hnorm, ?_⟩
    rw [hform]
    rfl
  | pauliZ =>
    refine ⟨_, hasForm_phases (x := -partOfPi 2) (p := partOfPi 2) evaluate ?_ ?_⟩
    · rw [Real.cos_neg, Real.sin_neg, cos_partOfPi_two, sin_partOfPi_two]
      rfl
    · have hhalf : (partOfPi 2 + partOfPi 2 : ℝ) = Real.pi := add_halves _
      rw [sub_neg_eq_add, hhalf, Cplx.cis_pi, add_neg_cancel, Cplx.cis_zero]
      rfl
  | sqrtPauliX =>
    have hform := Canonical.form_rotationX SingleKind.matrix.cosine SingleKind.matrix.cosine
    exact ⟨_, rfl, Canonical.norm_rotationX hcosine, congrArg Except.ok hform.symm⟩
  | invSqrtPauliX =>
    have hform := Canonical.form_rotationX SingleKind.matrix.cosine (-SingleKind.matrix.cosine)
    have hnorm := Canonical.norm_rotationX hopposite
    rw [neg_neg] at hform hnorm
    exact ⟨_, rfl, hnorm, congrArg Except.ok hform.symm⟩
  | sqrtPauliY =>
    have hform := Canonical.form_rotationY SingleKind.matrix.cosine SingleKind.matrix.cosine
    exact ⟨_, rfl, Canonical.norm_rotationY hcosine, congrArg Except.ok hform.symm⟩
  | invSqrtPauliY =>
    have hform := Canonical.form_rotationY SingleKind.matrix.cosine (-SingleKind.matrix.cosine)
    rw [neg_neg] at hform
    exact ⟨_, rfl, Canonical.norm_rotationY hopposite, congrArg Except.ok hform.symm⟩
  | sGate =>
    refine ⟨_, hasForm_phases (x := -partOfPi 4) (p := partOfPi 4) evaluate ?_ ?_⟩
    · rw [canonical, invRootTwo_eq, Real.cos_neg, Real.sin_neg, cos_partOfPi_four,
        sin_partOfPi_four]
      rfl
    · rw [sub_neg_eq_add, heighth, cis_partOfPi_two, add_neg_cancel, Cplx.cis_zero]
      rfl
  | invSGate =>
    refine ⟨_, hasForm_phases (x := partOfPi 4) (p := -partOfPi 4) evaluate ?_ ?_⟩
    · rw [canonical, invRootTwo_eq, cos_partOfPi_four, sin_partOfPi_four, ← hback]
      rfl
    · rw [neg_add_cancel, Cplx.cis_zero, ← neg_add', heighth, ← Cplx.conj_cis, cis_partOfPi_two]
      rfl
  | tGate =>
    refine ⟨_, hasForm_phases (x := -partOfPi 8) (p := partOfPi 8) evaluate ?_ ?_⟩
    · rw [Real.cos_neg, Real.sin_neg]
      rfl
    · rw [sub_neg_eq_add, hsixteenth, add_neg_cancel, Cplx.cis_zero]
      rfl
  | invTGate =>
    refine ⟨_, hasForm_phases (x := partOfPi 8) (p := -partOfPi 8) evaluate ?_ ?_⟩
    · rw [canonical, canonical.backTurn, hback]
      rfl
    · rw [neg_add_cancel, Cplx.cis_zero, ← neg_add', hsixteenth]
      rfl
  | hadamard =>
    refine ⟨⟨0, -(1 / √2), 0, -(1 / √2), partOfPi 2⟩, ?_, ?_, ?_⟩
    · rw [canonical, invRootTwo_eq]
      rfl
    · simp only [Canonical.norm]
      linear_combination hroot
    · rw [Canonical.form_hadamard, SingleKind.matrix, invRootTwo_eq]
      rfl
  | gPi =>
    obtain ⟨q, theta | _, ⟨⟩⟩ := args <;> cases hp
    refine ⟨_, rfl, Canonical.norm_flip theta, ?_⟩
    rw [Canonical.form_flip]
    rfl
  | gPi2 =>
    obtain ⟨q, theta | _, ⟨⟩⟩ := args <;> cases hp
    refine ⟨⟨1 / √2, 0, Real.sin theta * (1 / √2), -(Real.cos theta * (1 / √2)), 0⟩, ?_, ?_, ?_⟩
    · rw [canonical, invRootTwo_eq]
      rfl
    · rw [mul_comm (Real.sin theta), mul_comm (Real.cos theta)]
      exact Canonical.norm_rotation hroot theta
    · rw [Canonical.form_quarterTurn, SingleKind.matrix, invRootTwo_eq]
      rfl

/-- The general gate with given canonical values has the matrix of these values. -/
theorem Canonical.matrix?_gate (c : Canonical ℝ) (q : ℕ) :
    (c.literals.gate q).matrix? (Param.value evaluate) tolerance = some (c.matrix tolerance) := rfl

end

/-- A gate on one qubit lists that qubit. -/
theorem Operation.qubits_of_single {R : Type} {op : Operation (Param R)} {q : ℕ}
    (h : op.singleQubit? = some q) : op.qubits = [q] := by
  obtain ⟨k, args, rfl⟩ := exists_single h
  cases k <;> cases h <;> rfl

/-- Every named gate on one qubit is its canonical form. Where its angles are numbers its canonical
values are numbers of norm one, which are accepted under any tolerance, and the matrix that they
make is the matrix of the gate in closed form. So the general gate with these values exists and has
the same matrix on the same qubit. -/
theorem canonical_form_of_named_gate (op : Operation (Param ℝ)) {q : ℕ}
    (hq : op.singleQubit? = some q) (hnamed : op.kind ≠ .single .general)
    (hp : op.isParametrized = false) (evaluate : String → Except (Fault ℝ) ℝ) {tolerance : ℝ}
    (ht : 0 ≤ tolerance) :
    ∃ (alphaRe alphaIm betaRe betaIm phase : ℝ) (u : CMat ℝ) (g : Operation (Param ℝ)),
      op.canonical? = some (.ok ⟨.literal alphaRe, .literal alphaIm, .literal betaRe,
        .literal betaIm, .literal phase⟩) ∧
      alphaRe ^ 2 + alphaIm ^ 2 + betaRe ^ 2 + betaIm ^ 2 = 1 ∧
      Canonical.matrix ⟨alphaRe, alphaIm, betaRe, betaIm, phase⟩ tolerance = .ok u ∧
      op.matrix? (Param.value evaluate) tolerance = some (.ok u) ∧
      op.toGeneral? = some (.ok g) ∧ g.qubits = op.qubits ∧
      g.matrix? (Param.value evaluate) tolerance = some (.ok u) := by
  obtain ⟨k, args, rfl⟩ := Operation.exists_single hq
  have hk : k ≠ .general := by
    rintro rfl
    exact hnamed rfl
  obtain ⟨c, hform⟩ := k.exists_form evaluate ht args hk hp
  have haccepted := c.matrix_eq_form hform.norm ht
  refine ⟨c.alphaRe, c.alphaIm, c.betaRe, c.betaIm, c.phase, c.form, c.literals.gate q,
    congrArg some hform.values, ?_, haccepted, congrArg some hform.matrix, ?_, ?_, ?_⟩
  · simpa [Canonical.norm, sq] using hform.norm
  · simp only [Operation.toGeneral?, Operation.canonical?, hq, hform.values]
    rfl
  · rw [Operation.qubits_of_single hq]
    rfl
  · rw [c.matrix?_gate, haccepted]

/-- A rotation by one about an axis in the plane at the angle two. -/
theorem canonical_form_of_planar_rotation :
    ∃ (alphaRe alphaIm betaRe betaIm phase : ℝ) (u : CMat ℝ) (g : Operation (Param ℝ)),
      Operation.canonical? ⟨.single .rotateXY, 3, .literal (1 : ℝ), .literal 2, ()⟩ =
        some (.ok ⟨.literal alphaRe, .literal alphaIm, .literal betaRe, .literal betaIm,
          .literal phase⟩) ∧
      alphaRe ^ 2 + alphaIm ^ 2 + betaRe ^ 2 + betaIm ^ 2 = 1 ∧
      Canonical.matrix ⟨alphaRe, alphaIm, betaRe, betaIm, phase⟩ 0 = .ok u ∧
      Operation.matrix? (Param.value fun _ => .error .undefined) 0
        ⟨.single .rotateXY, 3, .literal (1 : ℝ), .literal 2, ()⟩ = some (.ok u) ∧
      Operation.toGeneral? ⟨.single .rotateXY, 3, .literal (1 : ℝ), .literal 2, ()⟩ =
        some (.ok g) ∧ g.qubits = [3] ∧
      g.matrix? (Param.value fun _ => .error .undefined) 0 = some (.ok u) :=
  canonical_form_of_named_gate ⟨.single .rotateXY, 3, .literal (1 : ℝ), .literal 2, ()⟩ (q := 3)
    rfl (by decide) rfl (fun _ => .error .undefined) le_rfl

end QuantumGates
