-- Every gate of the catalogue is unitary. Beyond two qubits a gate exchanges two states or gives
-- a phase to each; the gates of registers rotate between opposite states, give a phase to each
-- parity, or are the Fourier matrix and its inverse.
import QuantumGates.Proofs.Gate.SmallGates

namespace QuantumGates

open CMat Finset

/-! ## Exchanges and phases -/

theorem isUnitary_exchange {k a b : ℕ} (ha : a < 2 ^ k) (hb : b < 2 ^ k) :
    (exchange (2 ^ k) a b : CMat ℝ).IsUnitary (2 ^ k) :=
  (actsOnBasis_exchange ha hb).isUnitary (fun _ _ _ _ h => (Equiv.swap a b).injective h)
    fun _ _ => by simp

theorem isUnitary_lastPhase (k : ℕ) {z : Cplx ℝ} (hz : z.conj * z = 1) :
    (ThreeKind.matrix.lastPhase (2 ^ k) z).IsUnitary (2 ^ k) := by
  refine Mat.isUnitary_diagonal k fun j _ => ?_
  split
  · exact hz
  · simp

theorem isUnitary_countPhase (phi : ℝ) {z : Cplx ℝ} (hz : z.conj * z = 1) :
    (Mat.diagonal 8 fun k => if k = 7 then countPhase phi k * z else countPhase phi k).IsUnitary
      8 := by
  refine Mat.isUnitary_diagonal 3 fun k _ => ?_
  have hcount : (countPhase phi k).conj * countPhase phi k = 1 := Cplx.conj_cis_mul_cis _
  split
  · grind
  · exact hcount

section

variable (evaluate : String → Except (Fault ℝ) ℝ)

theorem ThreeKind.isUnitary_matrix (k : ThreeKind) (args : Args (Param ℝ) k.fields)
    (hp : Operation.isParametrized ⟨.three k, args⟩ = false) :
    ∃ u, k.matrix (Param.value evaluate) args = .ok u ∧ u.IsUnitary 8 := by
  have hminus : (-1 : Cplx ℝ).conj * -1 = 1 := by simp
  cases k with
  | controlledControlledPauliZ => exact ⟨_, rfl, isUnitary_lastPhase 3 hminus⟩
  | controlledControlledPhaseShift =>
    obtain ⟨a, b, t, theta | _, ⟨⟩⟩ := args <;> cases hp
    exact ⟨_, rfl, isUnitary_lastPhase 3 (Cplx.conj_cis_mul_cis theta)⟩
  | toffoli => exact ⟨_, rfl, isUnitary_exchange (k := 3) (by omega) (by omega)⟩
  | controlledSwap => exact ⟨_, rfl, isUnitary_exchange (k := 3) (by omega) (by omega)⟩
  | phaseShiftedControlledControlledZ =>
    obtain ⟨a, b, t, phi | _, ⟨⟩⟩ := args <;> cases hp
    exact ⟨_, rfl, isUnitary_countPhase phi hminus⟩
  | phaseShiftedControlledControlledPhase =>
    obtain ⟨a, b, t, theta | _, phi | _, ⟨⟩⟩ := args <;> cases hp
    exact ⟨_, rfl, isUnitary_countPhase phi (Cplx.conj_cis_mul_cis theta)⟩

theorem FourKind.isUnitary_matrix (k : FourKind) (args : Args (Param ℝ) k.fields)
    (hp : Operation.isParametrized ⟨.four k, args⟩ = false) :
    ∃ u, k.matrix (Param.value evaluate) args = .ok u ∧ u.IsUnitary 16 := by
  cases k with
  | tripleControlledPauliX =>
    exact ⟨_, rfl, isUnitary_exchange (k := 4) (by omega) (by omega)⟩
  | tripleControlledPauliZ => exact ⟨_, rfl, isUnitary_lastPhase 4 (by simp)⟩
  | tripleControlledPhaseShift =>
    obtain ⟨a, b, c, t, theta | _, ⟨⟩⟩ := args <;> cases hp
    exact ⟨_, rfl, isUnitary_lastPhase 4 (Cplx.conj_cis_mul_cis theta)⟩

/-! ## Registers -/

/-- Two states have a row in common only if they are the same. -/
theorem sum_unitEntry {n j : ℕ} (hj : j < n) (k : ℕ) :
    ∑ r ∈ range n, (Mat.unitEntry r j * Mat.unitEntry r k : Cplx ℝ) = Mat.unitEntry j k := by
  rw [sum_eq_single j]
  · simp [Mat.unitEntry]
  · intro r _ hne
    simp [Mat.unitEntry, hne]
  · intro hmem
    exact absurd (mem_range.mpr hj) hmem

/-- A rotation between each state and its opposite. -/
theorem isUnitary_oppositeRotation (n : ℕ) {c s : ℝ} (h : c * c + s * s = 1) :
    (Mat.ofFn n n fun r k => real c * Mat.unitEntry r k -
      imaginary 1 * real s * Mat.unitEntry r (n - 1 - k)).IsUnitary n := by
  refine Mat.HasGram.isUnitary ⟨⟨rfl, rfl⟩, fun j hj k hk => ?_⟩
  have hi := Cplx.i_mul_i
  have hcs := Cplx.real_mul_self_add h
  have hconj : ∀ r c, (Mat.unitEntry r c : Cplx ℝ).conj = Mat.unitEntry r c := by
    intro r c
    unfold Mat.unitEntry
    split <;> simp
  have hterm : ∀ r ∈ range n,
      ((Mat.ofFn n n fun r k => real c * Mat.unitEntry r k -
        imaginary 1 * real s * Mat.unitEntry r (n - 1 - k)).get r j).conj *
        (Mat.ofFn n n fun r k => real c * Mat.unitEntry r k -
          imaginary 1 * real s * Mat.unitEntry r (n - 1 - k)).get r k =
      real c * real c * (Mat.unitEntry r j * Mat.unitEntry r k) +
        real s * real s * (Mat.unitEntry r (n - 1 - j) * Mat.unitEntry r (n - 1 - k)) +
        Cplx.i * real c * real s * (Mat.unitEntry r (n - 1 - j) * Mat.unitEntry r k -
          Mat.unitEntry r j * Mat.unitEntry r (n - 1 - k)) := by
    intro r hr
    rw [Mat.get_ofFn _ (mem_range.mp hr) hj, Mat.get_ofFn _ (mem_range.mp hr) hk]
    simp only [Cplx.conj_sub, Cplx.conj_mul, Cplx.conj_real, hconj, Cplx.imaginary_eq,
      Cplx.conj_i, Cplx.real_one, Cplx.conj_one]
    linear_combination (-(real s * real s * Mat.unitEntry r (n - 1 - j) *
      Mat.unitEntry r (n - 1 - k))) * hi
  -- Opposites of two states are the same if the states are, and each the opposite of the other.
  have hboth : (Mat.unitEntry (n - 1 - j) (n - 1 - k) : Cplx ℝ) = Mat.unitEntry j k := by
    have hiff : n - 1 - j = n - 1 - k ↔ j = k := by omega
    simp only [Mat.unitEntry, hiff]
  have hcross : (Mat.unitEntry (n - 1 - j) k : Cplx ℝ) = Mat.unitEntry j (n - 1 - k) := by
    have hiff : n - 1 - j = k ↔ j = n - 1 - k := by omega
    simp only [Mat.unitEntry, hiff]
  rw [sum_congr rfl hterm, sum_add_distrib, sum_add_distrib, ← mul_sum, ← mul_sum, ← mul_sum,
    sum_sub_distrib, sum_unitEntry hj, sum_unitEntry hj, sum_unitEntry (by omega),
    sum_unitEntry (by omega), hboth, hcross]
  show _ = Mat.unitEntry j k
  linear_combination Mat.unitEntry j k * hcs

theorem isUnitary_parityPhase (n : ℕ) {z : Cplx ℝ} (hz : z.conj * z = 1) :
    (Mat.diagonal (2 ^ n) fun k => if bitCount k % 2 = 0 then z else z.conj).IsUnitary
      (2 ^ n) := by
  refine Mat.isUnitary_diagonal n fun k _ => ?_
  split
  · exact hz
  · exact conj_unit hz

/-- The listed qubits of a gate on a register. -/
def RegisterKind.listed : (k : RegisterKind) → Args (Param ℝ) k.fields → List ℕ
  | .ms, (qs, _) => qs
  | .zz, (qs, _) => qs
  | .cnot, (qs, _) => qs
  | .qft, (qs, _) => qs

theorem RegisterKind.qubits_eq (k : RegisterKind) (args : Args (Param ℝ) k.fields) :
    Operation.qubits ⟨.register k, args⟩ = k.listed args := by
  cases k <;> exact List.append_nil _

theorem RegisterKind.isUnitary_matrix (k : RegisterKind) (args : Args (Param ℝ) k.fields)
    (hp : Operation.isParametrized ⟨.register k, args⟩ = false)
    (hne : k = .cnot → Operation.qubits ⟨.register k, args⟩ ≠ []) :
    ∃ u, k.matrix (Param.value evaluate) args = .ok u ∧
      u.IsUnitary (2 ^ (Operation.qubits ⟨.register k, args⟩).length) := by
  rw [k.qubits_eq] at hne ⊢
  cases k with
  | ms =>
    obtain ⟨qs, theta | _, ⟨⟩⟩ := args <;> cases hp
    exact ⟨_, rfl, isUnitary_oppositeRotation _ (cos_mul_self_add _)⟩
  | zz =>
    obtain ⟨qs, theta | _, ⟨⟩⟩ := args <;> cases hp
    exact ⟨_, rfl, isUnitary_parityPhase _ (Cplx.conj_cis_mul_cis _)⟩
  | cnot =>
    obtain ⟨qs, ⟨⟩⟩ := args
    have hpos : 0 < 2 ^ qs.length := Nat.two_pow_pos _
    exact ⟨_, matrix_controlledNot _ (hne rfl), isUnitary_exchange (by omega) (by omega)⟩
  | qft =>
    obtain ⟨qs, swaps, inverse, ⟨⟩⟩ := args
    have hunitary := isUnitary_fourierTable qs.length swaps
    refine ⟨_, matrix_fourier _ qs swaps inverse, ?_⟩
    cases inverse with
    | false => exact hunitary
    | true => exact hunitary.adjoint

end

/-! ## All gates -/

/-- A gate on a given number of qubits lists just as many. -/
theorem SingleKind.length_qubits (k : SingleKind) (args : Args (Param ℝ) k.fields) :
    (Operation.qubits ⟨.single k, args⟩).length = 1 := by
  cases k <;> rfl

theorem TwoKind.length_qubits (k : TwoKind) (args : Args (Param ℝ) k.fields) :
    (Operation.qubits ⟨.two k, args⟩).length = 2 := by
  cases k <;> rfl

theorem ThreeKind.length_qubits (k : ThreeKind) (args : Args (Param ℝ) k.fields) :
    (Operation.qubits ⟨.three k, args⟩).length = 3 := by
  cases k <;> rfl

theorem FourKind.length_qubits (k : FourKind) (args : Args (Param ℝ) k.fields) :
    (Operation.qubits ⟨.four k, args⟩).length = 4 := by
  cases k <;> rfl

/-- A gate without free parameters has a unitary matrix, except that the one given by its canonical
values may be refused. -/
theorem Operation.exists_isUnitary_matrix? (op : Operation (Param ℝ)) (hcall : op.kind ≠ .call)
    (hp : op.isParametrized = false) (hne : op.kind = .register .cnot → op.qubits ≠ [])
    (evaluate : String → Except (Fault ℝ) ℝ) {tolerance : ℝ} (ht : 0 ≤ tolerance)
    (hgeneral : op.kind ≠ .single .general) : ∃ u,
      op.matrix? (Param.value evaluate) tolerance = some (.ok u) ∧
        u.IsUnitary (2 ^ op.qubits.length) := by
  obtain ⟨kind, args⟩ := op
  cases kind with
  | single k =>
    have hk : k ≠ .general := by
      rintro rfl
      exact hgeneral rfl
    obtain ⟨u, hu, hunitary⟩ := k.isUnitary_matrix evaluate ht args hk hp
    rw [k.length_qubits args]
    exact ⟨u, congrArg some hu, hunitary⟩
  | two k =>
    obtain ⟨u, hu, hunitary⟩ := k.isUnitary_matrix evaluate args hp
    rw [k.length_qubits args]
    exact ⟨u, congrArg some hu, hunitary⟩
  | three k =>
    obtain ⟨u, hu, hunitary⟩ := k.isUnitary_matrix evaluate args hp
    rw [k.length_qubits args]
    exact ⟨u, congrArg some hu, hunitary⟩
  | four k =>
    obtain ⟨u, hu, hunitary⟩ := k.isUnitary_matrix evaluate args hp
    rw [k.length_qubits args]
    exact ⟨u, congrArg some hu, hunitary⟩
  | register k =>
    obtain ⟨u, hu, hunitary⟩ := k.isUnitary_matrix evaluate args hp fun h => hne (h ▸ rfl)
    exact ⟨u, congrArg some hu, hunitary⟩
  | call => exact absurd rfl hcall

/-- Every gate without free parameters has a unitary matrix on its qubits. Of the gate given by
its canonical values the norm must be one within the tolerance, and the adjoint of its matrix is
the inverse up to the norm. The Fourier matrix and that of its inverse are inverses of each other
on both sides. -/
theorem unitary_of_every_gate (op : Operation (Param ℝ)) (hcall : op.kind ≠ .call)
    (hp : op.isParametrized = false) (hne : op.kind = .register .cnot → op.qubits ≠ [])
    (evaluate : String → Except (Fault ℝ) ℝ) {tolerance : ℝ} (ht : 0 ≤ tolerance) :
    (op.kind ≠ .single .general → ∃ u,
      op.matrix? (Param.value evaluate) tolerance = some (.ok u) ∧
        u.IsUnitary (2 ^ op.qubits.length)) ∧
    (∀ (q : ℕ) (alphaRe alphaIm betaRe betaIm phase : ℝ),
      op = ⟨.single .general, q, .literal alphaRe, .literal alphaIm, .literal betaRe,
        .literal betaIm, .literal phase, ()⟩ →
      let norm := alphaRe * alphaRe + alphaIm * alphaIm + betaRe * betaRe + betaIm * betaIm
      ((∃ u, op.matrix? (Param.value evaluate) tolerance = some (.ok u)) ↔
        |norm - 1| ≤ tolerance) ∧
      ∀ u, op.matrix? (Param.value evaluate) tolerance = some (.ok u) →
        u.IsSquare (2 ^ op.qubits.length) ∧
          (u.transposeWith Cplx.conj).mul u =
            Mat.scale (real norm) (Mat.identity (2 ^ op.qubits.length))) ∧
    ∀ (qubits : List ℕ) (swaps inverse : Bool),
      op = ⟨.register .qft, qubits, swaps, inverse, ()⟩ → ∃ u v,
        op.matrix? (Param.value evaluate) tolerance = some (.ok u) ∧
        Operation.matrix? (Param.value evaluate) tolerance
          ⟨.register .qft, qubits, swaps, !inverse, ()⟩ = some (.ok v) ∧
        u.mul v = Mat.identity (2 ^ qubits.length) ∧
        v.mul u = Mat.identity (2 ^ qubits.length) := by
  refine ⟨?_, ?_, ?_⟩
  · exact op.exists_isUnitary_matrix? hcall hp hne evaluate ht
  · rintro q alphaRe alphaIm betaRe betaIm phase rfl
    let c : Canonical ℝ := ⟨alphaRe, alphaIm, betaRe, betaIm, phase⟩
    intro norm
    have hread : Operation.matrix? (Param.value evaluate) tolerance
        ⟨.single .general, q, .literal alphaRe, .literal alphaIm, .literal betaRe,
          .literal betaIm, .literal phase, ()⟩ = some (c.matrix tolerance) := rfl
    rw [hread]
    refine ⟨?_, fun u hu => ?_⟩
    · simp only [Option.some.injEq]
      exact c.exists_matrix_iff tolerance
    · have hform := Canonical.eq_form_of_matrix (Option.some.inj hu)
      rw [hform]
      exact ⟨c.hasGram_form.1, c.hasGram_form.adjoint_mul⟩
  · rintro qubits swaps inverse rfl
    have hunitary := isUnitary_fourierTable qubits.length swaps
    have hforward := congrArg some (matrix_fourier (Param.value evaluate) qubits swaps inverse)
    have hback := congrArg some (matrix_fourier (Param.value evaluate) qubits swaps !inverse)
    refine ⟨_, _, hforward, hback, ?_⟩
    cases inverse with
    | false => exact ⟨hunitary.mul_adjoint, hunitary.2⟩
    | true => exact ⟨hunitary.2, hunitary.mul_adjoint⟩

/-- The interaction with a complex coupling of three and four. -/
theorem unitary_of_complex_coupling :
    ∃ u, Operation.matrix? (Param.value fun _ => .error .undefined) (0 : ℝ)
        ⟨.two .complexPMInteraction, 1, 0, .literal 3, .literal (-4), ()⟩ = some (.ok u) ∧
      u.IsUnitary 4 :=
  (unitary_of_every_gate ⟨.two .complexPMInteraction, 1, 0, .literal 3, .literal (-4), ()⟩
    (by decide) rfl (by simp) (fun _ => .error .undefined) le_rfl).1 (by decide)

end QuantumGates
