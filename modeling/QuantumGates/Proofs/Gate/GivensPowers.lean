-- Powers of the Givens rotations. Their matrix is a rotation by theta beside a phase by phi that
-- does not depend on theta, so the power of a gate, which multiplies theta, repeats the rotation
-- but not the phase. The matrices at all angles theta are a group with one parameter up to this
-- phase: repeating one of them counts the phase each time, and its powers count it once.
import QuantumGates.Proofs.Gate.RotationPowers

namespace QuantumGates

open CMat Finset

/-- Square matrices for all real numbers, where the product of two is the one for the sum if `N`,
which undoes the matrix for nought, stands between them. -/
structure PhasedGroup (M : ℝ → CMat ℝ) (N : CMat ℝ) (n : ℕ) : Prop where
  square : ∀ x, (M x).IsSquare n
  square_undo : N.IsSquare n
  undo_zero : N.mul (M 0) = Mat.identity n
  zero_undo : (M 0).mul N = Mat.identity n
  add : ∀ x y, M (x + y) = (M x).mul (N.mul (M y))

/-! ## A group and a fixed phase -/

section

variable {G : ℝ → CMat ℝ} {P N : CMat ℝ} {n : ℕ}

theorem OneParameterGroup.before (h : OneParameterGroup G n) (hP : P.IsSquare n)
    (hN : N.IsSquare n) (hNP : N.mul P = Mat.identity n) (hPN : P.mul N = Mat.identity n) :
    PhasedGroup (fun x => (G x).mul P) N n where
  square x := (h.square x).mul hP
  square_undo := hN
  undo_zero := by rw [h.zero, Mat.identity_mul hP, hNP]
  zero_undo := by rw [h.zero, Mat.identity_mul hP, hPN]
  add x y := by
    have hx := h.square x
    have hy := h.square y
    calc (G (x + y)).mul P = ((G x).mul (G y)).mul P := by rw [h.add]
      _ = (G x).mul ((P.mul N).mul ((G y).mul P)) := by
        rw [hPN, Mat.identity_mul (hy.mul hP), Mat.assoc_of_isSquare hx hy hP]
      _ = ((G x).mul P).mul (N.mul ((G y).mul P)) := by
        rw [Mat.assoc_of_isSquare hP hN (hy.mul hP),
          Mat.assoc_of_isSquare hx hP (hN.mul (hy.mul hP))]

theorem OneParameterGroup.after (h : OneParameterGroup G n) (hP : P.IsSquare n)
    (hN : N.IsSquare n) (hNP : N.mul P = Mat.identity n) (hPN : P.mul N = Mat.identity n) :
    PhasedGroup (fun x => P.mul (G x)) N n where
  square x := hP.mul (h.square x)
  square_undo := hN
  undo_zero := by rw [h.zero, Mat.mul_identity hP, hNP]
  zero_undo := by rw [h.zero, Mat.mul_identity hP, hPN]
  add x y := by
    have hx := h.square x
    have hy := h.square y
    calc P.mul (G (x + y)) = (P.mul (G x)).mul (G y) := by
          rw [h.add, Mat.assoc_of_isSquare hP hx hy]
      _ = (P.mul (G x)).mul ((N.mul P).mul (G y)) := by rw [hNP, Mat.identity_mul hy]
      _ = (P.mul (G x)).mul (N.mul (P.mul (G y))) := by rw [Mat.assoc_of_isSquare hN hP hy]

end

namespace PhasedGroup

variable {M : ℝ → CMat ℝ} {N : CMat ℝ} {n : ℕ}

/-- A multiple of the parameter repeats the matrix, the phase counted once. -/
theorem natCast (h : PhasedGroup M N n) (k : ℕ) :
    M k = (M 0).mul (Mat.productOf n (List.replicate k (N.mul (M 1)))) := by
  have hstep : (N.mul (M 1)).IsSquare n := h.square_undo.mul (h.square 1)
  induction k with
  | zero =>
    rw [Nat.cast_zero]
    exact (Mat.mul_identity (h.square 0)).symm
  | succ k ih =>
    have hrest : (Mat.productOf n (List.replicate k (N.mul (M 1)))).IsSquare n :=
      Mat.isSquare_productOf fun m hm => List.eq_of_mem_replicate hm ▸ hstep
    calc M ((k + 1 : ℕ) : ℝ)
        = (M 1).mul ((N.mul (M 0)).mul (Mat.productOf n (List.replicate k (N.mul (M 1))))) := by
          rw [Nat.cast_succ, add_comm, h.add, ih, Mat.assoc_of_isSquare h.square_undo (h.square 0)
            hrest]
      _ = ((M 0).mul N).mul ((M 1).mul (Mat.productOf n (List.replicate k (N.mul (M 1))))) := by
          rw [h.undo_zero, h.zero_undo, Mat.identity_mul hrest,
            Mat.identity_mul ((h.square 1).mul hrest)]
      _ = (M 0).mul ((N.mul (M 1)).mul (Mat.productOf n (List.replicate k (N.mul (M 1))))) := by
          rw [Mat.assoc_of_isSquare (h.square 0) h.square_undo ((h.square 1).mul hrest),
            Mat.assoc_of_isSquare h.square_undo (h.square 1) hrest]

/-- Without a phase the matrices are a group. -/
theorem group_of_zero (h : PhasedGroup M N n) (hzero : M 0 = Mat.identity n) :
    OneParameterGroup M n where
  square := h.square
  zero := hzero
  add x y := by
    have hundo : N = Mat.identity n := by
      rw [← h.undo_zero, hzero, Mat.mul_identity h.square_undo]
    rw [h.add, hundo, Mat.identity_mul (h.square y)]

/-- The matrix for the opposite number undoes a matrix, between the two that undo the phase. -/
theorem exists_inverse (h : PhasedGroup M N n) (x : ℝ) :
    ∃ L : CMat ℝ, L.IsSquare n ∧ L.mul (M x) = Mat.identity n ∧ (M x).mul L = Mat.identity n := by
  have hx := h.square x
  have hback := h.square (-x)
  have hN := h.square_undo
  refine ⟨N.mul ((M (-x)).mul N), hN.mul (hback.mul hN), ?_, ?_⟩
  · rw [Mat.assoc_of_isSquare hN (hback.mul hN) hx, Mat.assoc_of_isSquare hback hN hx, ← h.add,
      neg_add_cancel, h.undo_zero]
  · rw [← Mat.assoc_of_isSquare hN hback hN, ← Mat.assoc_of_isSquare hx (hN.mul hback) hN, ← h.add,
      add_neg_cancel, h.zero_undo]

/-- The matrix for two repeats that for one only without a phase. -/
theorem two_iff (h : PhasedGroup M N n) :
    M 2 = (M 1).mul (M 1) ↔ M 0 = Mat.identity n := by
  have htwo : M 2 = (M 1).mul (N.mul (M 1)) := by rw [← one_add_one_eq_two, h.add]
  have hone := h.square 1
  have hN := h.square_undo
  constructor
  · intro hrepeated
    obtain ⟨L, hL, hleft, hright⟩ := h.exists_inverse 1
    have hsame : N.mul (M 1) = M 1 := by
      rw [← Mat.identity_mul (hN.mul hone), ← hleft, Mat.assoc_of_isSquare hL hone (hN.mul hone),
        ← htwo, hrepeated, ← Mat.assoc_of_isSquare hL hone hone, hleft, Mat.identity_mul hone]
    have hundo : N = Mat.identity n := by
      rw [← Mat.mul_identity hN, ← hright, ← Mat.assoc_of_isSquare hN hone hL, hsame]
    rw [← h.undo_zero, hundo, Mat.identity_mul (h.square 0)]
  · intro hzero
    rw [← one_add_one_eq_two]
    exact (h.group_of_zero hzero).add 1 1

/-- The natural powers repeat the matrix only without a phase. -/
theorem natCast_iff (h : PhasedGroup M N n) :
    (∀ k : ℕ, M k = Mat.productOf n (List.replicate k (M 1))) ↔ M 0 = Mat.identity n := by
  refine ⟨fun hpowers => ?_, fun hzero => (h.group_of_zero hzero).natCast⟩
  rw [← Nat.cast_zero (R := ℝ), hpowers 0]
  rfl

end PhasedGroup

/-! ## The Givens rotations -/

/-- The rotation between 01 and 10 by an angle. -/
noncomputable def givensTurn (x : ℝ) : CMat ℝ :=
  outerInner unitRows [[real (Real.cos x), real (Real.sin x)],
    [real (-Real.sin x), real (Real.cos x)]]

theorem givensTurn_group : OneParameterGroup givensTurn 4 := by
  have hi := Cplx.i_mul_i
  have hconj : Cplx.conj (-Cplx.i : Cplx ℝ) * -Cplx.i = 1 := by grind
  have hgroup := OneParameterGroup.outerInner .identity (.rotation (p := -Cplx.i) hconj)
  have hturn : givensTurn = fun x => outerInner unitRows
      (CMat.rotation (Real.cos (x * 2 / 2)) (Real.sin (x * 2 / 2)) (-Cplx.i)) := by
    funext x
    have hforth : minusI (Real.sin x) * Cplx.conj (-Cplx.i) = real (Real.sin x) := by grind
    have hback : minusI (Real.sin x) * -Cplx.i = real (-Real.sin x) := by grind
    rw [mul_div_cancel_right₀ x two_ne_zero, CMat.rotation, hforth, hback, givensTurn]
  rw [hturn]
  exact hgroup.rescale 2

/-- A phase on the states of two qubits that have a property. -/
noncomputable def phaseOnStates (P : ℕ → Prop) [DecidablePred P] (φ : ℝ) : CMat ℝ :=
  Mat.diagonal 4 fun k => if P k then Cplx.cis φ else 1

theorem phaseOnStates_group (P : ℕ → Prop) [DecidablePred P] :
    OneParameterGroup (phaseOnStates P) 4 := .phaseOn 2 P

theorem get_phaseOnStates (P : ℕ → Prop) [DecidablePred P] (φ : ℝ) {r c : ℕ} (hr : r < 4)
    (hc : c < 4) : (phaseOnStates P φ).get r c =
      if r = c then if P r then Cplx.cis φ else 1 else 0 := Mat.get_diagonal _ hr hc

theorem phaseOnStates_eq_identity {P : ℕ → Prop} [DecidablePred P] (hP : P 3) {φ : ℝ} :
    phaseOnStates P φ = Mat.identity 4 ↔ Cplx.cis φ = 1 := by
  constructor
  · intro h
    have hentry := congrArg (fun m => Mat.get m 3 3) h
    rwa [get_phaseOnStates P φ (by decide) (by decide), if_pos rfl, if_pos hP,
      Mat.get_identity (by decide) (by decide), if_pos rfl] at hentry
  · intro h
    unfold phaseOnStates
    simp only [h, ite_self]
    rfl

theorem outerInner_eq_table (a b c d a' b' c' d' : Cplx ℝ) :
    outerInner [[a, b], [c, d]] [[a', b'], [c', d']] =
      table [[a, 0, 0, b], [0, a', b', 0], [0, c', d', 0], [c, 0, 0, d]] := by
  simp [outerInner, get_table]

/-- A Givens rotation turns after the phase on the states whose second qubit is 1. -/
theorem givens_eq (x φ : ℝ) :
    outerInner [[1, 0], [0, Cplx.cis φ]]
      [[real (Real.cos x) * Cplx.cis φ, real (Real.sin x)],
        [real (-Real.sin x) * Cplx.cis φ, real (Real.cos x)]] =
      (givensTurn x).mul (phaseOnStates (fun k => k % 2 = 1) φ) := by
  refine Mat.IsSquare.ext (n := 4) ⟨rfl, rfl⟩ ⟨rfl, rfl⟩ fun r hr c hc => ?_
  rw [phaseOnStates, Mat.get_mul_diagonal (givensTurn_group.square x) hr hc, givensTurn, unitRows,
    outerInner_eq_table, outerInner_eq_table, get_table hr hc, get_table hr hc]
  interval_cases r <;> interval_cases c <;> simp

/-- The one with exchanged qubits turns before the phase on those whose first qubit is 1. -/
theorem givensLittleEndian_eq (x φ : ℝ) :
    outerInner [[1, 0], [0, Cplx.cis φ]]
      [[real (Real.cos x), real (Real.sin x)],
        [real (-Real.sin x) * Cplx.cis φ, real (Real.cos x) * Cplx.cis φ]] =
      (phaseOnStates (fun k => 2 ≤ k) φ).mul (givensTurn x) := by
  refine Mat.IsSquare.ext (n := 4) ⟨rfl, rfl⟩ ⟨rfl, rfl⟩ fun r hr c hc => ?_
  rw [phaseOnStates, Mat.get_diagonal_mul (givensTurn_group.square x) hr hc, givensTurn, unitRows,
    outerInner_eq_table, outerInner_eq_table, get_table hr hc, get_table hr hc]
  interval_cases r <;> interval_cases c <;> simp [mul_comm]

/-- The matrices of a Givens rotation whose angle theta is multiplied. -/
theorem Operation.exists_phasedGroup (op : Operation (Param ℝ))
    (hkind : op.kind = .two .givens ∨ op.kind = .two .givensLittleEndian)
    (hp : op.isParametrized = false) (evaluate : String → Except (Fault ℝ) ℝ) (tolerance : ℝ) :
    ∃ (φ : ℝ) (M : ℝ → CMat ℝ) (N : CMat ℝ),
      ("phi", FieldValue.parameter (Param.literal φ)) ∈ op.entries ∧ PhasedGroup M N 4 ∧
        (M 0 = Mat.identity 4 ↔ Cplx.cis φ = 1) ∧ ∀ x : ℝ,
          (op.onTheta fun p => (Param.literal x).mul p).matrix? (Param.value evaluate) tolerance =
            some (.ok (M x)) := by
  obtain ⟨kind, args⟩ := op
  rcases hkind with rfl | rfl
  · obtain ⟨a, b, theta | _, phi | _, ⟨⟩⟩ := args <;> cases hp
    have hphase := phaseOnStates_group fun k => k % 2 = 1
    have hturn := givensTurn_group.rescale theta
    refine ⟨phi, fun x => (givensTurn (x * theta)).mul (phaseOnStates (fun k => k % 2 = 1) phi), _,
      ?_, hturn.before (hphase.square phi) (hphase.square (-phi)) (hphase.inverse_mul phi)
        (hphase.mul_inverse phi), ?_, fun x => ?_⟩
    · exact .tail _ (.tail _ (.tail _ (.head _)))
    · beta_reduce
      rw [hturn.zero, Mat.identity_mul (hphase.square phi)]
      exact phaseOnStates_eq_identity (by decide)
    · exact congrArg (some ∘ Except.ok) (givens_eq (x * theta) phi)
  · obtain ⟨a, b, theta | _, phi | _, ⟨⟩⟩ := args <;> cases hp
    have hphase := phaseOnStates_group fun k => 2 ≤ k
    have hturn := givensTurn_group.rescale theta
    refine ⟨phi, fun x => (phaseOnStates (fun k => 2 ≤ k) phi).mul (givensTurn (x * theta)), _,
      ?_, hturn.after (hphase.square phi) (hphase.square (-phi)) (hphase.inverse_mul phi)
        (hphase.mul_inverse phi), ?_, fun x => ?_⟩
    · exact .tail _ (.tail _ (.tail _ (.head _)))
    · beta_reduce
      rw [hturn.zero, Mat.mul_identity (hphase.square phi)]
      exact phaseOnStates_eq_identity (by decide)
    · exact congrArg (some ∘ Except.ok) (givensLittleEndian_eq (x * theta) phi)

/-- Powers of a Givens rotation without free parameters, in exact arithmetic. The matrices of the
powers are a group with one parameter up to the phase by phi, which the power nought leaves and
which a natural power counts once. So they repeat the gate just when this phase is one, and the
second power does no sooner. -/
theorem powers_of_givens (op : Operation (Param ℝ))
    (hkind : op.kind = .two .givens ∨ op.kind = .two .givensLittleEndian)
    (hp : op.isParametrized = false) (evaluate : String → Except (Fault ℝ) ℝ) (tolerance : ℝ) :
    ∃ (φ : ℝ) (M : ℝ → CMat ℝ) (N : CMat ℝ),
      ("phi", FieldValue.parameter (Param.literal φ)) ∈ op.entries ∧
      (∀ x : ℝ, ∃ g, op.power (.literal x) = .ok g ∧ g.qubits = op.qubits ∧
        g.matrix? (Param.value evaluate) tolerance = some (.ok (M x))) ∧
      op.matrix? (Param.value evaluate) tolerance = some (.ok (M 1)) ∧
      PhasedGroup M N 4 ∧
      (∀ k : ℕ, M k = (M 0).mul (Mat.productOf 4 (List.replicate k (N.mul (M 1))))) ∧
      ((∀ k : ℕ, M k = Mat.productOf 4 (List.replicate k (M 1))) ↔ Cplx.cis φ = 1) ∧
      (M 2 = (M 1).mul (M 1) ↔ Cplx.cis φ = 1) := by
  obtain ⟨φ, M, N, hphi, hgroup, hzero, hmatrix⟩ :=
    op.exists_phasedGroup hkind hp evaluate tolerance
  have hrot : op.kind.isRotation = true := by
    rcases hkind with h | h <;> rw [h] <;> rfl
  have hpower (x : ℝ) : op.power (.literal x) =
      .ok (op.onTheta fun p => (Param.literal x).mul p) := if_pos hrot
  have hone : op.power (.literal 1) = .ok op :=
    Operation.power_one hrot fun p _ => Param.one_mul_real p
  have hsame := Except.ok.inj ((hpower 1).symm.trans hone)
  refine ⟨φ, M, N, hphi, fun x => ⟨_, hpower x, op.qubits_onTheta _, hmatrix x⟩, ?_, hgroup,
    hgroup.natCast, hgroup.natCast_iff.trans hzero, hgroup.two_iff.trans hzero⟩
  rw [← hmatrix 1, hsame]

/-- The powers of a Givens rotation with a phase of a quarter turn. -/
theorem powers_of_givens_on_two_qubits :
    let op : Operation (Param ℝ) := ⟨.two .givens, 0, 1, .literal 1, .literal (Real.pi / 2), ()⟩
    let value : Param ℝ → Except (Fault ℝ) ℝ := Param.value fun _ => .error .undefined
    ∃ (M : ℝ → CMat ℝ) (N : CMat ℝ), PhasedGroup M N 4 ∧
      ∀ x : ℝ, ∃ g, op.power (.literal x) = .ok g ∧ g.matrix? value 0 = some (.ok (M x)) := by
  intro op value
  obtain ⟨-, M, N, -, hpower, -, hgroup, -⟩ :=
    powers_of_givens op (.inl rfl) rfl (fun _ => .error .undefined) 0
  refine ⟨M, N, hgroup, fun x => ?_⟩
  obtain ⟨g, hg, -, hx⟩ := hpower x
  exact ⟨g, hg, hx⟩

/-- With the angles nought and half a turn, applying the gate twice gives the identity, but its
second power is the gate itself. -/
theorem second_power_of_givens :
    let op : Operation (Param ℝ) := ⟨.two .givens, 0, 1, .literal 0, .literal Real.pi, ()⟩
    let value : Param ℝ → Except (Fault ℝ) ℝ := Param.value fun _ => .error .undefined
    ∃ (g : Operation (Param ℝ)) (u : CMat ℝ), op.power (.literal 2) = .ok g ∧
      op.matrix? value 0 = some (.ok u) ∧ g.matrix? value 0 = some (.ok u) ∧
      u.mul u = Mat.identity 4 ∧ u ≠ Mat.identity 4 := by
  intro op value
  have hphase := phaseOnStates_group fun k => k % 2 = 1
  have hidentity {φ : ℝ} : phaseOnStates (fun k => k % 2 = 1) φ = Mat.identity 4 ↔
      Cplx.cis φ = 1 := phaseOnStates_eq_identity (by decide)
  have hunturned : (givensTurn 0).mul (phaseOnStates (fun k => k % 2 = 1) Real.pi) =
      phaseOnStates (fun k => k % 2 = 1) Real.pi := by
    rw [givensTurn_group.zero, Mat.identity_mul (hphase.square Real.pi)]
  refine ⟨op.onTheta fun p => (Param.literal 2).mul p,
    phaseOnStates (fun k => k % 2 = 1) Real.pi, rfl, ?_, ?_, ?_, ?_⟩
  · exact congrArg (some ∘ Except.ok) ((givens_eq 0 Real.pi).trans hunturned)
  · refine congrArg (some ∘ Except.ok) ((givens_eq (2 * 0) Real.pi).trans ?_)
    rw [mul_zero, hunturned]
  · rw [← hphase.add, hidentity, Cplx.cis_add, Cplx.cis_pi, neg_mul_neg, one_mul]
  · intro h
    have hre := congrArg Cplx.re (Cplx.cis_pi.symm.trans (hidentity.mp h))
    rw [Cplx.re_neg, Cplx.re_one] at hre
    norm_num at hre

end QuantumGates
