-- Powers of rotations. In exact arithmetic the matrices of a rotation at all angles theta are a
-- group with one parameter: angle nought gives the identity and a sum of angles the product. The
-- blocks of the gates are such groups, and two of them side by side are one again. So the power of
-- a gate, which multiplies its angle, is what repeating or undoing the gate gives.
import QuantumGates.Proofs.Circuit.FlipRotation
import QuantumGates.Proofs.Gate.CanonicalProduct
import QuantumGates.Proofs.Gate.Unitarity

namespace QuantumGates

open CMat Finset

/-- Square matrices for all real numbers, the identity for nought and the product for a sum. -/
structure OneParameterGroup (M : ℝ → CMat ℝ) (n : ℕ) : Prop where
  square : ∀ x, (M x).IsSquare n
  zero : M 0 = Mat.identity n
  add : ∀ x y, M (x + y) = (M x).mul (M y)

namespace OneParameterGroup

/-! ## Powers and inverses -/

section

variable {M : ℝ → CMat ℝ} {n : ℕ}

theorem rescale (h : OneParameterGroup M n) (k : ℝ) : OneParameterGroup (fun x => M (x * k)) n where
  square x := h.square _
  zero := by rw [zero_mul, h.zero]
  add x y := by rw [add_mul, h.add]

/-- A multiple of the parameter repeats the matrix. -/
theorem natCast (h : OneParameterGroup M n) (k : ℕ) :
    M k = Mat.productOf n (List.replicate k (M 1)) := by
  induction k with
  | zero =>
    rw [Nat.cast_zero, h.zero]
    rfl
  | succ k ih =>
    rw [Nat.cast_succ, add_comm, h.add, ih]
    rfl

theorem inverse_mul (h : OneParameterGroup M n) (x : ℝ) : (M (-x)).mul (M x) = Mat.identity n := by
  rw [← h.add, neg_add_cancel, h.zero]

theorem mul_inverse (h : OneParameterGroup M n) (x : ℝ) : (M x).mul (M (-x)) = Mat.identity n := by
  rw [← h.add, add_neg_cancel, h.zero]

end

/-! ## Groups of blocks -/

theorem identity : OneParameterGroup (fun _ => table unitRows) 2 where
  square _ := ⟨rfl, rfl⟩
  zero := identity_two.symm
  add _ _ := by
    rw [unitRows, table_mul]
    simp

/-- A phase for each state, with a speed of its own. -/
theorem diagonal (n : ℕ) (w : ℕ → ℝ) :
    OneParameterGroup (fun x => Mat.diagonal (2 ^ n) fun k => Cplx.cis (w k * x)) (2 ^ n) where
  square x := Mat.isSquare_diagonal _ _
  zero := by
    simp only [mul_zero, Cplx.cis_zero]
    rfl
  add x y := by
    rw [Mat.diagonal_mul_diagonal]
    simp only [mul_add, Cplx.cis_add]

/-- Rotations with the same phase between the two states add their angles. -/
theorem rotation_mul {p : Cplx ℝ} (hp : p.conj * p = 1) (c s c' s' : ℝ) :
    (table (CMat.rotation c s p)).mul (table (CMat.rotation c' s' p)) =
      table (CMat.rotation (c * c' - s * s') (s * c' + c * s') p) := by
  have hi := Cplx.i_mul_i
  have hcos : real (c * c' - s * s') = real c * real c' - real s * real s' := by
    rw [sub_eq_add_neg, Cplx.real_add, Cplx.real_neg, Cplx.real_mul, Cplx.real_mul, sub_eq_add_neg]
  have hsin : real (s * c' + c * s') = real s * real c' + real c * real s' := by
    rw [Cplx.real_add, Cplx.real_mul, Cplx.real_mul]
  have h00 : real c * real c' + minusI s * p.conj * (minusI s' * p) = real (c * c' - s * s') := by
    grind
  have h01 : real c * (minusI s' * p.conj) + minusI s * p.conj * real c' =
      minusI (s * c' + c * s') * p.conj := by grind
  have h10 : minusI s * p * real c' + real c * (minusI s' * p) = minusI (s * c' + c * s') * p := by
    grind
  have h11 : minusI s * p * (minusI s' * p.conj) + real c * real c' = real (c * c' - s * s') := by
    grind
  simp only [CMat.rotation]
  rw [table_mul, h00, h01, h10, h11]

/-- A rotation with a phase between the two states. -/
theorem rotation {p : Cplx ℝ} (hp : p.conj * p = 1) :
    OneParameterGroup (fun x => table (CMat.rotation (Real.cos (x / 2)) (Real.sin (x / 2)) p))
      2 where
  square _ := ⟨rfl, rfl⟩
  zero := by
    rw [identity_two, zero_div, Real.cos_zero, Real.sin_zero]
    simp [CMat.rotation, Cplx.minusI_eq]
  add x y := by rw [rotation_mul hp, add_div, Real.cos_add, Real.sin_add]

/-- The rotation around an axis given by its angles. -/
theorem spherical (polar azimuth : ℝ) :
    OneParameterGroup (fun x => (Canonical.spherical (x / 2) polar azimuth).form) 2 where
  square x := Canonical.isSquare_form _
  zero := by
    have hone : Canonical.spherical (0 / 2) polar azimuth = 1 := by
      ext <;> simp [Canonical.spherical]
    rw [hone, Canonical.form_one]
  add x y := by
    have hpolar := cos_mul_self_add polar
    have hazimuth := cos_mul_self_add azimuth
    have hmul : Canonical.spherical ((x + y) / 2) polar azimuth =
        Canonical.spherical (x / 2) polar azimuth * Canonical.spherical (y / 2) polar azimuth := by
      ext <;> simp only [Canonical.spherical, add_div, Real.cos_add, Real.sin_add,
        Canonical.alphaRe_mul, Canonical.alphaIm_mul, Canonical.betaRe_mul, Canonical.betaIm_mul,
        Canonical.phase_mul]
      · linear_combination Real.sin (x / 2) * Real.sin (y / 2) * hpolar +
          Real.sin (x / 2) * Real.sin (y / 2) * Real.sin polar ^ 2 * hazimuth
      · ring
      · ring
      · ring
      · ring
    rw [hmul, Canonical.form_mul]

/-! ## Groups side by side -/

section

variable {A B : ℝ → List (List (Cplx ℝ))}

/-- An entry for a sum of two angles. -/
theorem get_add {M : ℝ → CMat ℝ} (h : OneParameterGroup M 2) (x y : ℝ) {r c : ℕ} (hr : r < 2)
    (hc : c < 2) : (M (x + y)).get r c =
      (M x).get r 0 * (M y).get 0 c + (M x).get r 1 * (M y).get 1 c := by
  rw [h.add, Mat.get_mul (h.square x) (h.square y) hr hc, sum_range_succ, sum_range_one]

/-- One group acts on 00 and 11, the other one on 01 and 10. -/
theorem outerInner (ha : OneParameterGroup (fun x => table (A x)) 2)
    (hb : OneParameterGroup (fun x => table (B x)) 2) :
    OneParameterGroup (fun x => CMat.outerInner (A x) (B x)) 4 where
  square _ := ⟨rfl, rfl⟩
  zero := by
    refine Mat.IsSquare.ext (n := 4) ⟨rfl, rfl⟩ ⟨rfl, rfl⟩ fun r hr c hc => ?_
    unfold CMat.outerInner
    simp only [ha.zero, hb.zero]
    interval_cases r <;> interval_cases c <;> simp [get_table, Mat.get_identity]
  add x y := by
    refine Mat.IsSquare.ext (n := 4) ⟨rfl, rfl⟩ ⟨rfl, rfl⟩ fun r hr c hc => ?_
    rw [Mat.get_mul (n := 4) ⟨rfl, rfl⟩ ⟨rfl, rfl⟩ hr hc]
    unfold CMat.outerInner
    simp only [sum_range_succ, sum_range_zero, zero_add]
    interval_cases r <;> interval_cases c <;>
      simp only [get_table, ha.get_add, hb.get_add, List.length_cons, List.length_nil,
        List.headD_cons, List.getElem?_cons_zero, List.getElem?_cons_succ, Option.getD_some,
        mul_zero, zero_mul, add_zero, zero_add, Nat.reduceAdd, Nat.reduceLT]

/-- A group that acts on 10 and 11. -/
theorem controlled (ha : OneParameterGroup (fun x => table (A x)) 2) :
    OneParameterGroup (fun x => CMat.controlled (A x)) 4 where
  square _ := ⟨rfl, rfl⟩
  zero := by
    refine Mat.IsSquare.ext (n := 4) ⟨rfl, rfl⟩ ⟨rfl, rfl⟩ fun r hr c hc => ?_
    unfold CMat.controlled
    simp only [ha.zero]
    interval_cases r <;> interval_cases c <;> simp [get_table, Mat.get_identity]
  add x y := by
    refine Mat.IsSquare.ext (n := 4) ⟨rfl, rfl⟩ ⟨rfl, rfl⟩ fun r hr c hc => ?_
    rw [Mat.get_mul (n := 4) ⟨rfl, rfl⟩ ⟨rfl, rfl⟩ hr hc]
    unfold CMat.controlled
    simp only [sum_range_succ, sum_range_zero, zero_add]
    interval_cases r <;> interval_cases c <;>
      simp only [get_table, ha.get_add, List.length_cons, List.length_nil, List.headD_cons,
        List.getElem?_cons_zero, List.getElem?_cons_succ, Option.getD_some, mul_zero, zero_mul,
        mul_one, add_zero, zero_add, Nat.reduceAdd, Nat.reduceLT]

end

/-- A rotation between each state and its complement. -/
theorem complement (k : ℕ) : OneParameterGroup (complementRotation k) (2 ^ k) where
  square := isSquare_complementRotation k
  zero := by
    refine (isSquare_complementRotation k 0).ext (Mat.isSquare_identity _) fun r hr c hc => ?_
    rw [get_complementRotation 0 hr hc, Mat.get_identity hr hc, zero_div, Real.cos_zero,
      Real.sin_zero, Cplx.real_one, Cplx.real_zero, one_mul, mul_zero, zero_mul, sub_zero]
  add x y := by
    have hx := isSquare_complementRotation k x
    have hy := isSquare_complementRotation k y
    refine (isSquare_complementRotation k _).ext (hx.mul hy) fun r hr c hc => ?_
    have hr' : 2 ^ k - 1 - r < 2 ^ k := by omega
    -- A row has two entries, one at the state and one at its complement.
    have hrow : ∑ j ∈ range (2 ^ k),
        (complementRotation k x).get r j * (complementRotation k y).get j c =
          real (Real.cos (x / 2)) * (complementRotation k y).get r c -
            imaginary 1 * real (Real.sin (x / 2)) *
              (complementRotation k y).get (2 ^ k - 1 - r) c := by
      have hterm : ∀ j ∈ range (2 ^ k),
          (complementRotation k x).get r j * (complementRotation k y).get j c =
            (if r = j then real (Real.cos (x / 2)) * (complementRotation k y).get j c else 0) -
              if 2 ^ k - 1 - r = j then imaginary 1 * real (Real.sin (x / 2)) *
                (complementRotation k y).get j c else 0 := by
        intro j hj
        have hiff : r = 2 ^ k - 1 - j ↔ 2 ^ k - 1 - r = j := by
          have := mem_range.mp hj
          omega
        rw [get_complementRotation x hr (mem_range.mp hj), if_congr hiff rfl rfl, sub_mul, mul_ite,
          mul_ite, ite_mul, ite_mul]
        simp only [mul_one, mul_zero, zero_mul]
      rw [sum_congr rfl hterm, sum_sub_distrib, sum_ite_eq, sum_ite_eq,
        if_pos (mem_range.mpr hr), if_pos (mem_range.mpr hr')]
    have hcross : 2 ^ k - 1 - r = c ↔ r = 2 ^ k - 1 - c := by omega
    have hboth : 2 ^ k - 1 - r = 2 ^ k - 1 - c ↔ r = c := by omega
    have hi := Cplx.i_mul_i
    rw [Mat.get_mul hx hy hr hc, hrow, get_complementRotation _ hr hc,
      get_complementRotation _ hr hc, get_complementRotation _ hr' hc, if_congr hcross rfl rfl,
      if_congr hboth rfl rfl, add_div, Real.cos_add, Real.sin_add]
    simp only [sub_eq_add_neg, Cplx.real_add, Cplx.real_mul, Cplx.real_neg, Cplx.imaginary_eq,
      Cplx.real_one, mul_one]
    linear_combination (-(real (Real.sin (x / 2)) * real (Real.sin (y / 2)) *
      if r = c then 1 else 0)) * hi

/-! ## Groups of phases -/

/-- A phase on some of the states. -/
theorem phaseOn (n : ℕ) (P : ℕ → Prop) [DecidablePred P] :
    OneParameterGroup (fun x => Mat.diagonal (2 ^ n) fun k => if P k then Cplx.cis x else 1)
      (2 ^ n) := by
  have hgroup := diagonal n fun k => if P k then 1 else 0
  simp only [ite_mul, one_mul, zero_mul, apply_ite Cplx.cis, Cplx.cis_zero] at hgroup
  exact hgroup

theorem lastPhase (n : ℕ) :
    OneParameterGroup (fun x => ThreeKind.matrix.lastPhase (2 ^ n) (Cplx.cis x)) (2 ^ n) :=
  phaseOn n fun k => k + 1 = 2 ^ n

/-- Opposite phases on the states with an even and with an odd count of ones. -/
theorem parity (n : ℕ) :
    OneParameterGroup (fun x => Mat.diagonal (2 ^ n) fun k => parityWeight x (bitCount k))
      (2 ^ n) := by
  have hgroup := diagonal n fun k => if bitCount k % 2 = 0 then -fraction 1 2 else fraction 1 2
  simp only [ite_mul, neg_mul, apply_ite Cplx.cis] at hgroup
  exact hgroup

end OneParameterGroup

/-! ## The matrices of a rotation -/

/-- A diagonal by the list of its entries. -/
theorem diagonal_eq_diagonalOf (n : ℕ) (f : ℕ → Cplx ℝ) :
    Mat.diagonal (2 ^ n) f = diagonalOf ((List.range (2 ^ n)).map f) := by
  have hlength : ((List.range (2 ^ n)).map f).length = 2 ^ n := by simp
  unfold diagonalOf
  rw [hlength]
  refine (Mat.isSquare_diagonal _ _).ext (Mat.isSquare_diagonal _ _) fun r hr c hc => ?_
  rw [Mat.get_diagonal _ hr hc, Mat.get_diagonal _ hr hc]
  simp [hr]

theorem conj_i_mul_i : (Cplx.i : Cplx ℝ).conj * Cplx.i = 1 := by
  have hi := Cplx.i_mul_i
  grind

theorem rotation_i (c s : ℝ) : CMat.rotation c s Cplx.i =
    [[real c, real (-s)], [real s, real c]] := by
  have hi := Cplx.i_mul_i
  have hback : minusI s * Cplx.conj Cplx.i = real (-s) := by grind
  have hforth : minusI s * Cplx.i = real s := by grind
  rw [CMat.rotation, hback, hforth]

theorem rotation_neg_one (c s : ℝ) : CMat.rotation c s (-1) =
    [[real c, imaginary 1 * real s], [imaginary 1 * real s, real c]] := by
  have hback : minusI s * Cplx.conj (-1) = imaginary 1 * real s := by grind
  have hforth : minusI s * -1 = imaginary 1 * real s := by grind
  rw [CMat.rotation, hback, hforth]

section

variable (evaluate : String → Except (Fault ℝ) ℝ) {tolerance : ℝ}

/-- The matrices of an operation whose angle theta is multiplied are a group with one parameter. -/
def Operation.HasPowers (tolerance : ℝ) (op : Operation (Param ℝ)) (n : ℕ) : Prop :=
  ∃ (θ : ℝ) (M : ℝ → CMat ℝ), OneParameterGroup M n ∧ ∀ x : ℝ,
    (op.onTheta fun p => (Param.literal x).mul p).matrix? (Param.value evaluate) tolerance =
      some (.ok (M (x * θ)))

theorem SingleKind.hasPowers (ht : 0 ≤ tolerance) (k : SingleKind)
    (args : Args (Param ℝ) k.fields) (hrot : (Kind.single k).isRotation = true)
    (hp : Operation.isParametrized ⟨.single k, args⟩ = false) :
    Operation.HasPowers evaluate tolerance ⟨.single k, args⟩ 2 := by
  cases k with
  | rotateX =>
    obtain ⟨q, theta | _, ⟨⟩⟩ := args <;> cases hp
    refine ⟨theta, _, .rotation (p := 1) (by simp), fun x => ?_⟩
    rw [← rotationX_eq]
    rfl
  | rotateY =>
    obtain ⟨q, theta | _, ⟨⟩⟩ := args <;> cases hp
    refine ⟨theta, _, .rotation (p := Cplx.i) conj_i_mul_i, fun x => ?_⟩
    rw [rotation_i]
    rfl
  | rotateZ =>
    obtain ⟨q, theta | _, ⟨⟩⟩ := args <;> cases hp
    refine ⟨theta, _, .parity 1, fun x => ?_⟩
    have hconj := Cplx.conj_cis (fraction 1 2 * (x * theta))
    rw [diagonal_eq_diagonalOf]
    show _ = some (Except.ok (diagonalOf [Cplx.cis (-(fraction 1 2 * (x * theta))),
      Cplx.cis (fraction 1 2 * (x * theta))]))
    rw [diagonalOf_two, ← hconj]
    rfl
  | rotateXY =>
    obtain ⟨q, theta | _, phi | _, ⟨⟩⟩ := args <;> cases hp
    exact ⟨theta, _, .rotation (Cplx.conj_cis_mul_cis phi), fun x => rfl⟩
  | rotateSpherical =>
    obtain ⟨q, theta | _, polar | _, azimuth | _, ⟨⟩⟩ := args <;> cases hp
    exact ⟨theta, _, .spherical polar azimuth, fun x =>
      congrArg some (matrix_rotateSpherical evaluate ht q (x * theta) polar azimuth)⟩
  | phaseShiftState0 =>
    obtain ⟨q, theta | _, ⟨⟩⟩ := args <;> cases hp
    refine ⟨theta, _, .phaseOn 1 fun k => k = 0, fun x => ?_⟩
    rw [diagonal_eq_diagonalOf]
    rfl
  | phaseShiftState1 =>
    obtain ⟨q, theta | _, ⟨⟩⟩ := args <;> cases hp
    refine ⟨theta, _, .lastPhase 1, fun x => ?_⟩
    rw [ThreeKind.matrix.lastPhase, diagonal_eq_diagonalOf]
    rfl
  | general | identity | pauliX | pauliY | pauliZ | sqrtPauliX | invSqrtPauliX | sqrtPauliY
  | invSqrtPauliY | sGate | invSGate | tGate | invTGate | hadamard | gPi | gPi2 => cases hrot

theorem TwoKind.hasPowers (k : TwoKind) (args : Args (Param ℝ) k.fields)
    (hrot : (Kind.two k).isRotation = true) (hgivens : k ≠ .givens)
    (hgivens' : k ≠ .givensLittleEndian)
    (hp : Operation.isParametrized ⟨.two k, args⟩ = false) :
    Operation.HasPowers evaluate tolerance ⟨.two k, args⟩ 4 := by
  cases k with
  | xy =>
    obtain ⟨a, b, theta | _, ⟨⟩⟩ := args <;> cases hp
    refine ⟨theta, _, .outerInner .identity (.rotation (p := -1) (by simp)), fun x => ?_⟩
    rw [rotation_neg_one]
    rfl
  | controlledPhaseShift =>
    obtain ⟨a, b, theta | _, ⟨⟩⟩ := args <;> cases hp
    refine ⟨theta, _, .lastPhase 2, fun x => ?_⟩
    rw [ThreeKind.matrix.lastPhase, diagonal_eq_diagonalOf]
    rfl
  | variableMSXX =>
    obtain ⟨a, b, theta | _, ⟨⟩⟩ := args <;> cases hp
    refine ⟨theta, _, .outerInner (.rotation (p := 1) (by simp)) (.rotation (p := 1) (by simp)),
      fun x => ?_⟩
    rw [← rotationX_eq]
    rfl
  | controlledRotateX =>
    obtain ⟨a, b, theta | _, ⟨⟩⟩ := args <;> cases hp
    refine ⟨theta, _, .controlled (.rotation (p := 1) (by simp)), fun x => ?_⟩
    rw [← rotationX_eq]
    rfl
  | controlledRotateXY =>
    obtain ⟨a, b, theta | _, phi | _, ⟨⟩⟩ := args <;> cases hp
    exact ⟨theta, _, .controlled (.rotation (Cplx.conj_cis_mul_cis phi)), fun x => rfl⟩
  | givens => exact absurd rfl hgivens
  | givensLittleEndian => exact absurd rfl hgivens'
  | cnot | swap | iSwap | fSwap | sqrtISwap | invSqrtISwap | controlledPauliY | controlledPauliZ
  | molmerSorensenXX | echoCrossResonance | spinInteraction | qsim | fsim | bogoliubov
  | pmInteraction | complexPMInteraction | phaseShiftedControlledZ
  | phaseShiftedControlledPhase => cases hrot

theorem ThreeKind.hasPowers (k : ThreeKind) (args : Args (Param ℝ) k.fields)
    (hrot : (Kind.three k).isRotation = true)
    (hp : Operation.isParametrized ⟨.three k, args⟩ = false) :
    Operation.HasPowers evaluate tolerance ⟨.three k, args⟩ 8 := by
  cases k with
  | controlledControlledPhaseShift =>
    obtain ⟨a, b, t, theta | _, ⟨⟩⟩ := args <;> cases hp
    exact ⟨theta, _, .lastPhase 3, fun x => rfl⟩
  | controlledControlledPauliZ | toffoli | controlledSwap | phaseShiftedControlledControlledZ
  | phaseShiftedControlledControlledPhase => cases hrot

theorem FourKind.hasPowers (k : FourKind) (args : Args (Param ℝ) k.fields)
    (hrot : (Kind.four k).isRotation = true)
    (hp : Operation.isParametrized ⟨.four k, args⟩ = false) :
    Operation.HasPowers evaluate tolerance ⟨.four k, args⟩ 16 := by
  cases k with
  | tripleControlledPhaseShift =>
    obtain ⟨a, b, c, t, theta | _, ⟨⟩⟩ := args <;> cases hp
    exact ⟨theta, _, .lastPhase 4, fun x => rfl⟩
  | tripleControlledPauliX | tripleControlledPauliZ => cases hrot

theorem RegisterKind.hasPowers (k : RegisterKind) (args : Args (Param ℝ) k.fields)
    (hrot : (Kind.register k).isRotation = true)
    (hp : Operation.isParametrized ⟨.register k, args⟩ = false) :
    Operation.HasPowers evaluate tolerance ⟨.register k, args⟩
      (2 ^ (Operation.qubits ⟨.register k, args⟩).length) := by
  rw [k.qubits_eq]
  cases k with
  | ms =>
    obtain ⟨qs, theta | _, ⟨⟩⟩ := args <;> cases hp
    exact ⟨theta, _, .complement qs.length, fun x => congrArg some (matrix_flipRotation rfl)⟩
  | zz =>
    obtain ⟨qs, theta | _, ⟨⟩⟩ := args <;> cases hp
    exact ⟨theta, _, .parity qs.length, fun x => congrArg some (matrix_parityRotation rfl)⟩
  | cnot | qft => cases hrot

end

/-! ## Changes of the angle -/

section

variable {P : Type}

/-- Only parameters of the given name are changed. -/
theorem Args.onNamed_eq_self {name : String} {change : P → P} {fs : List Field} (args : Args P fs)
    (h : ∀ p, (name, FieldValue.parameter p) ∈ (fs.map (·.name)).zip (args.values fs) →
      change p = p) : args.onNamed name change fs = args := by
  induction fs with
  | nil => rfl
  | cons f fs ih =>
    obtain ⟨n, kind⟩ := f
    obtain ⟨a, args⟩ := args
    have hrest : args.onNamed name change fs = args :=
      ih args fun p hp => h p (List.mem_cons_of_mem _ hp)
    cases kind with
    | parameter =>
      show (if n = name then change a else a, args.onNamed name change fs) = (a, args)
      rw [hrest]
      split
      · rename_i hname
        subst hname
        rw [h a (List.mem_cons_self ..)]
      · rfl
    | qubit | qubits | parameters | flag | name => exact congrArg (Prod.mk a) hrest

theorem Args.qubits_onNamed (name : String) (change : P → P) {fs : List Field} (args : Args P fs) :
    ((args.onNamed name change fs).values fs).flatMap FieldValue.qubitList =
      (args.values fs).flatMap FieldValue.qubitList := by
  induction fs with
  | nil => rfl
  | cons f fs ih =>
    obtain ⟨n, kind⟩ := f
    obtain ⟨a, args⟩ := args
    cases kind with
    | parameter => exact ih args
    | qubit | qubits | parameters | flag | name => exact congrArg (_ ++ ·) (ih args)

end

namespace Operation

theorem qubits_onTheta {P : Type} (op : Operation P) (change : P → P) :
    (op.onTheta change).qubits = op.qubits := Args.qubits_onNamed _ _ op.args

/-- A rotation to the power one, if one times the angle is the angle. -/
theorem power_one {R : Type} [Scalar R] {op : Operation (Param R)}
    (hrot : op.kind.isRotation = true)
    (h : ∀ p, ("theta", FieldValue.parameter p) ∈ op.entries → (Param.literal 1).mul p = p) :
    op.power (.literal 1) = .ok op := by
  unfold power
  rw [if_pos hrot, onTheta, Args.onNamed_eq_self op.args h]

end Operation

/-- One times an expression is the expression. -/
theorem Param.one_mul_expression {R : Type} [Scalar R] (hone : Scalar.equal (1 : R) 1 = true)
    (hzero : Scalar.equal (1 : R) 0 = false) (s : String) :
    (Param.literal (1 : R)).mul (.expression s) = .expression s := by
  simp [mul, isZero, isOne, isNumber, hone, hzero]

theorem Param.one_mul_real (p : Param ℝ) : (Param.literal 1).mul p = p := by
  cases p with
  | literal x => exact congrArg Param.literal (one_mul x)
  | expression s => exact one_mul_expression (decide_eq_true rfl) (decide_eq_false one_ne_zero) s

/-- Powers of a rotation without free parameters, on any number of qubits. In exact arithmetic the
matrices of its powers multiply as the exponents add; so a natural power repeats the gate, the power
nought is the identity and the power minus one the inverse. The power one is the gate itself, also
if its angle theta is an expression, and then for doubles too. The two rotations of Givens are left
out: their phase by phi stays whatever theta is. -/
theorem powers_of_rotation (op : Operation (Param ℝ)) (hrot : op.kind.isRotation = true)
    (evaluate : String → Except (Fault ℝ) ℝ) {tolerance : ℝ} (ht : 0 ≤ tolerance) :
    (op.isParametrized = false → op.kind ≠ .two .givens → op.kind ≠ .two .givensLittleEndian →
      ∃ M : ℝ → CMat ℝ,
        (∀ x : ℝ, ∃ g, op.power (.literal x) = .ok g ∧ g.qubits = op.qubits ∧
          g.matrix? (Param.value evaluate) tolerance = some (.ok (M x))) ∧
        op.matrix? (Param.value evaluate) tolerance = some (.ok (M 1)) ∧
        (∀ x y, (M x).mul (M y) = M (x + y)) ∧
        (∀ k : ℕ, M k = Mat.productOf (2 ^ op.qubits.length) (List.replicate k (M 1))) ∧
        M 0 = Mat.identity (2 ^ op.qubits.length) ∧
        (M (-1)).mul (M 1) = Mat.identity (2 ^ op.qubits.length) ∧
        (M 1).mul (M (-1)) = Mat.identity (2 ^ op.qubits.length)) ∧
    op.power (.literal 1) = .ok op ∧
    ∀ g : Operation (Param Float), g.kind.isRotation = true →
      (∀ p, ("theta", FieldValue.parameter p) ∈ g.entries → p.isSymbolic = true) →
        g.power (.literal 1) = .ok g := by
  have hone : op.power (.literal 1) = .ok op :=
    Operation.power_one hrot fun p _ => Param.one_mul_real p
  refine ⟨fun hp hgivens hgivens' => ?_, hone, fun g hg hsymbolic => ?_⟩
  · have hpowers : op.HasPowers evaluate tolerance (2 ^ op.qubits.length) := by
      obtain ⟨kind, args⟩ := op
      cases kind with
      | single k =>
        rw [k.length_qubits args]
        exact k.hasPowers evaluate ht args hrot hp
      | two k =>
        rw [k.length_qubits args]
        exact k.hasPowers evaluate args hrot (fun h => hgivens (h ▸ rfl))
          (fun h => hgivens' (h ▸ rfl)) hp
      | three k =>
        rw [k.length_qubits args]
        exact k.hasPowers evaluate args hrot hp
      | four k =>
        rw [k.length_qubits args]
        exact k.hasPowers evaluate args hrot hp
      | register k => exact k.hasPowers evaluate args hrot hp
      | call => cases hrot
    obtain ⟨θ, M, hgroup, hmatrix⟩ := hpowers
    have hscaled := hgroup.rescale θ
    have hpower : ∀ x : ℝ, op.power (.literal x) =
        .ok (op.onTheta fun p => (Param.literal x).mul p) := fun x => if_pos hrot
    refine ⟨fun x => M (x * θ), fun x => ⟨_, hpower x, op.qubits_onTheta _, hmatrix x⟩, ?_,
      fun x y => (hscaled.add x y).symm, hscaled.natCast, hscaled.zero, hscaled.inverse_mul 1,
      hscaled.mul_inverse 1⟩
    have hsame := Except.ok.inj ((hpower 1).symm.trans hone)
    rw [← hmatrix 1, hsame]
  · refine Operation.power_one hg fun p hp => ?_
    cases p with
    | literal x => cases hsymbolic _ hp
    | expression s => exact Param.one_mul_expression (by decide +kernel) (by decide +kernel) s

/-- The rotation by one with respect to the first axis of three qubits. -/
theorem powers_of_rotation_on_three_qubits :
    let op : Operation (Param ℝ) := ⟨.register .ms, [0, 2, 5], .literal 1, ()⟩
    let value : Param ℝ → Except (Fault ℝ) ℝ := Param.value fun _ => .error .undefined
    ∃ M : ℝ → CMat ℝ,
      (∀ x : ℝ, ∃ g, op.power (.literal x) = .ok g ∧ g.matrix? value 0 = some (.ok (M x))) ∧
      op.matrix? value 0 = some (.ok (M 1)) ∧ ∀ x y, (M x).mul (M y) = M (x + y) := by
  intro op value
  obtain ⟨M, hpower, hmatrix, hadd, -⟩ :=
    (powers_of_rotation op rfl (fun _ => .error .undefined) le_rfl).1 rfl (by decide) (by decide)
  refine ⟨M, fun x => ?_, hmatrix, hadd⟩
  obtain ⟨g, hg, -, hx⟩ := hpower x
  exact ⟨g, hg, hx⟩

end QuantumGates
