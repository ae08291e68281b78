-- The circuit of the inverse Fourier transform. Its ladder has the gates of the forward ladder
-- with opposite phases, so that its matrix is the conjugate of the forward one. The forward
-- matrix is symmetric up to the order of its rows, hence the conjugate is the inverse between
-- two reversals of the bits, and on the qubits in reversed order it is the inverse itself.
import QuantumGates.Proofs.Circuit.Reversal
import QuantumGates.Proofs.Exact.FourierUnitary
import QuantumGates.Proofs.Register.Entries

namespace QuantumGates

open CMat

/-! ## Conjugate circuits -/

section

variable (value : Param ℝ → Except (Fault ℝ) ℝ) (tolerance : ℝ) {n : ℕ}

/-- The matrix of one gate on a register is that of another one with conjugate entries. -/
def Operation.IsConjugate (n : ℕ) (op op' : Operation (Param ℝ)) : Prop :=
  ∃ m, op.onRegister value tolerance n = .ok m ∧
    op'.onRegister value tolerance n = .ok (m.mapEntries Cplx.conjHom)

/-- Conjugate gates one by one make conjugate matrices. -/
theorem Circuit.unitary_conjugate {c d : Circuit ℝ}
    (h : List.Forall₂ (Operation.IsConjugate value tolerance n) c d) :
    ∃ u, c.unitary value tolerance n = .ok u ∧
      d.unitary value tolerance n = .ok (u.mapEntries Cplx.conjHom) := by
  induction h with
  | nil =>
    refine ⟨_, Circuit.unitary_nil _ _ n, ?_⟩
    rw [Mat.mapEntries_identity]
    exact Circuit.unitary_nil _ _ n
  | cons hgate hrest ih =>
    obtain ⟨m, hm, hm'⟩ := hgate
    obtain ⟨u, hu, hu'⟩ := ih
    have hsqm := Circuit.isSquare_unitary _ _ (Circuit.unitary_singleton _ _ hm)
    have hsq := Circuit.isSquare_unitary _ _ hu
    refine ⟨_, Circuit.unitary_cons _ _ hm hu, ?_⟩
    rw [Mat.mapEntries_mul _ hsq hsqm]
    exact Circuit.unitary_cons _ _ hm' hu'

theorem isConjugate_hadamard {q : ℕ} (hq : q < n) :
    Operation.IsConjugate value tolerance n (.hadamard q) (.hadamard q) := by
  have hgate := onRegister_hadamard value tolerance hq
  refine ⟨_, hgate, hgate.trans (congrArg Except.ok ?_)⟩
  have hreal : (Mat.scale (real (1 / √2)) (table [[1, 1], [1, -1]])).mapEntries Cplx.conjHom =
      Mat.scale (real (1 / √2)) (table [[1, 1], [1, -1]]) := by
    refine Mat.IsSquare.ext (n := 2) ⟨rfl, rfl⟩ ⟨rfl, rfl⟩ fun r hr c hc => ?_
    rw [Mat.get_mapEntries _ ⟨rfl, rfl⟩ hr hc, get_scale hr hc, get_table hr hc]
    interval_cases r <;> interval_cases c <;> simp
  unfold hadamardGate
  rw [mapEntries_liftGate _ ⟨rfl, rfl⟩ (List.nodup_singleton q) (by simpa using hq), hreal]

theorem mapEntries_diagonalOf (ds : List (Cplx ℝ)) :
    (diagonalOf ds).mapEntries Cplx.conjHom = diagonalOf (ds.map Cplx.conj) := by
  unfold diagonalOf
  rw [Mat.mapEntries_diagonal, List.length_map]
  congr 1
  funext k
  rw [List.getElem?_map]
  cases ds[k]? <;> simp

theorem isConjugate_controlledPhase {p q : ℕ} (hp : p < n) (hq : q < n) (hpq : p ≠ q)
    {theta theta' : Param ℝ} {x : ℝ} (hx : value theta = .ok x) (hx' : value theta' = .ok (-x)) :
    Operation.IsConjugate value tolerance n (.controlledPhase p q theta)
      (.controlledPhase p q theta') := by
  have hgate := onRegister_controlledPhase value tolerance theta hx hp hq hpq
  have hgate' := onRegister_controlledPhase value tolerance theta' hx' hp hq hpq
  refine ⟨_, hgate, hgate'.trans (congrArg Except.ok ?_)⟩
  unfold controlledPhaseGate
  rw [mapEntries_liftGate _ ⟨rfl, rfl⟩ (by simpa using hpq) (by simp [hp, hq]),
    mapEntries_diagonalOf]
  simp [Cplx.conj_cis]

end

/-! ## The ladder with opposite phases -/

section

variable (evaluate : String → Except (Fault ℝ) ℝ) (tolerance : ℝ) {n : ℕ}

theorem isConjugate_phasesTo {q : ℕ} (hq : q < n) {rest : List ℕ} (hrest : ∀ p ∈ rest, p < n)
    (hne : q ∉ rest) (k : ℕ) :
    ∃ c d, phasesTo (1 : ℝ) q k rest = .ok c ∧ phasesTo (-1 : ℝ) q k rest = .ok d ∧
      List.Forall₂ (Operation.IsConjugate (Param.value evaluate) tolerance n) c d := by
  induction rest generalizing k with
  | nil => exact ⟨[], [], rfl, rfl, .nil⟩
  | cons p rest ih =>
    have hp : p < n := hrest p (by simp)
    have hpq : p ≠ q := fun heq => hne (by simp [heq])
    obtain ⟨c, d, hc, hd, hcd⟩ := ih (fun s hs => hrest s (by simp [hs]))
      (fun hmem => hne (by simp [hmem])) (k + 1)
    have hgate : Operation.IsConjugate (Param.value evaluate) tolerance n
        (.controlledPhase p q (.literal (1 * (Real.pi / 2 ^ k))))
        (.controlledPhase p q (.literal (-1 * (Real.pi / 2 ^ k)))) :=
      isConjugate_controlledPhase _ _ hp hq hpq rfl (by simp [Param.value])
    refine ⟨_, _, ?_, ?_, .cons hgate hcd⟩
    · unfold phasesTo
      rw [powerOfTwo?_eq, hc]
      rfl
    · unfold phasesTo
      rw [powerOfTwo?_eq, hd]
      rfl

theorem isConjugate_fourierLadder {qs : List ℕ} (hd : qs.Nodup) (hq : ∀ q ∈ qs, q < n) :
    ∃ c d, fourierLadder (1 : ℝ) qs = .ok c ∧ fourierLadder (-1 : ℝ) qs = .ok d ∧
      List.Forall₂ (Operation.IsConjugate (Param.value evaluate) tolerance n) c d := by
  induction qs with
  | nil => exact ⟨[], [], rfl, rfl, .nil⟩
  | cons q rest ih =>
    rw [List.nodup_cons] at hd
    have hq0 : q < n := hq q (by simp)
    have hrest : ∀ p ∈ rest, p < n := fun p hp => hq p (by simp [hp])
    obtain ⟨c, d, hc, hd', hcd⟩ := ih hd.2 hrest
    obtain ⟨a, b, ha, hb, hab⟩ := isConjugate_phasesTo evaluate tolerance hq0 hrest hd.1 1
    have hgate := isConjugate_hadamard (Param.value evaluate) tolerance hq0
    refine ⟨_, _, ?_, ?_, List.rel_append (.cons hgate hab) hcd⟩
    · unfold fourierLadder
      rw [ha, hc]
      rfl
    · unfold fourierLadder
      rw [hb, hd']
      rfl

theorem unitary_oppositeLadder {qs : List ℕ} (hd : qs.Nodup) (hq : ∀ q ∈ qs, q < n) :
    ∃ d, fourierLadder (-1 : ℝ) qs = .ok d ∧
      d.unitary (Param.value evaluate) tolerance n =
        .ok (liftGate ((fourierTable qs.length false).mapEntries Cplx.conjHom) qs n) := by
  obtain ⟨c, d, hc, hd', hcd⟩ := isConjugate_fourierLadder evaluate tolerance hd hq
  obtain ⟨c', hc', hu⟩ := unitary_fourierLadder evaluate tolerance hd hq
  obtain ⟨u, hu', hv⟩ := Circuit.unitary_conjugate _ _ hcd
  have hsame : c' = c := Except.ok.inj (hc'.symm.trans hc)
  subst hsame
  have hmatrix : u = liftGate (fourierTable qs.length false) qs n :=
    Except.ok.inj (hu'.symm.trans hu)
  refine ⟨d, hd', ?_⟩
  rw [hv, hmatrix, mapEntries_liftGate _ (isSquare_fourierTable _ _) hd hq]

/-! ## The matrix between two reversals -/

theorem fourierEntry_reversed {n r c : ℕ} (hr : r < 2 ^ n) (hc : c < 2 ^ n) (swaps : Bool) :
    (((reversalMatrix n).mul ((fourierTable n swaps).transposeWith Cplx.conj)).mul
      (reversalMatrix n)).get r c =
        (fourierEntry n ((if swaps then reversedBits n c else c) * reversedBits n r)).conj := by
  have hF := isSquare_fourierTable n swaps
  have hr' := reversedBits_lt n r
  have hc' := reversedBits_lt n c
  rw [get_reversed (Mat.isSquare_adjoint hF) hr hc, Mat.get_adjoint hF hr' hc',
    get_fourierTable _ hc' hr', reversedBits_reversedBits hc]

/-- Without exchanges the conjugate of the forward matrix is the inverse between two reversals. -/
theorem conjugate_fourierTable (n : ℕ) :
    (fourierTable n false).mapEntries Cplx.conjHom =
      ((reversalMatrix n).mul ((fourierTable n false).transposeWith Cplx.conj)).mul
        (reversalMatrix n) := by
  have hF := isSquare_fourierTable n false
  refine (Mat.isSquare_mapEntries _ hF).ext (isSquare_reversed (Mat.isSquare_adjoint hF))
    fun r hr c hc => ?_
  rw [Mat.get_mapEntries _ hF hr hc, get_fourierTable _ hr hc, fourierEntry_reversed hr hc]
  simp [Nat.mul_comm]

/-- With exchanges before it the conjugate is the inverse between two reversals, too. -/
theorem conjugate_fourierTable_mul_reversalMatrix (n : ℕ) :
    ((fourierTable n false).mapEntries Cplx.conjHom).mul (reversalMatrix n) =
      ((reversalMatrix n).mul ((fourierTable n true).transposeWith Cplx.conj)).mul
        (reversalMatrix n) := by
  have hF := isSquare_fourierTable n false
  have hF' := Mat.isSquare_mapEntries Cplx.conjHom hF
  refine (hF'.mul (isSquare_reversalMatrix n)).ext
    (isSquare_reversed (Mat.isSquare_adjoint (isSquare_fourierTable n true)))
    fun r hr c hc => ?_
  have hc' := reversedBits_lt n c
  rw [get_mul_reversalMatrix hF' hr hc, Mat.get_mapEntries _ hF hr hc', get_fourierTable _ hr hc',
    fourierEntry_reversed hr hc]
  simp [Nat.mul_comm]

theorem unitary_inverseFourier {qs : List ℕ} (hd : qs.Nodup) (hq : ∀ q ∈ qs, q < n)
    (swaps : Bool) :
    ∃ c, fourierCircuit (R := ℝ) qs swaps true = .ok c ∧
      c.unitary (Param.value evaluate) tolerance n =
        .ok (liftGate (((reversalMatrix qs.length).mul
          ((fourierTable qs.length swaps).transposeWith Cplx.conj)).mul
            (reversalMatrix qs.length)) qs n) := by
  obtain ⟨d, hd', hu⟩ := unitary_oppositeLadder evaluate tolerance hd hq
  have hbuild : fourierCircuit (R := ℝ) qs swaps true =
      .ok ((if swaps then reversal qs else []) ++ d) := by
    unfold fourierCircuit
    simp only [if_true, hd']
    rfl
  have hF := Mat.isSquare_mapEntries Cplx.conjHom (isSquare_fourierTable qs.length false)
  cases swaps with
  | false =>
    rw [conjugate_fourierTable] at hu
    exact ⟨d, hbuild, hu⟩
  | true =>
    have hexchanges := unitary_reversal_eq_lift (Param.value evaluate) tolerance hd hq
      (reads_reversalMatrix qs.length)
    refine ⟨reversal qs ++ d, hbuild, ?_⟩
    rw [Circuit.unitary_append _ _ hexchanges hu,
      ← liftGate_mul hd hq hF (isSquare_reversalMatrix _),
      conjugate_fourierTable_mul_reversalMatrix]

end

/-! ## The gate -/

/-- The circuit of the inverse Fourier gate on distinct qubits of a register has the matrix of the
gate between two reversals of the bits. Run on the qubits in reversed order, after the circuit of
the forward gate, it restores every state of the register. -/
theorem inverse_fourier_circuit {qubits : List ℕ} {n : ℕ} (hd : qubits.Nodup)
    (hq : ∀ q ∈ qubits, q < n) (swaps : Bool) (evaluate : String → Except (Fault ℝ) ℝ)
    (tolerance : ℝ) :
    let gate (qs : List ℕ) (inverse : Bool) : Operation (Param ℝ) :=
      ⟨.register .qft, qs, swaps, inverse, ()⟩
    let reversed (u : CMat ℝ) : CMat ℝ :=
      ((reversalMatrix qubits.length).mul u).mul (reversalMatrix qubits.length)
    (∃ c u v, (gate qubits true).circuit? = some (.ok c) ∧
      (gate qubits true).matrix? (Param.value evaluate) tolerance = some (.ok u) ∧
      u.IsSquare (2 ^ qubits.length) ∧
      c.unitary (Param.value evaluate) tolerance n = .ok v ∧
      (embed (reversed u) qubits n : Except (Fault ℝ) (CMat ℝ)) = .ok v ∧
      (qubits = List.range n → v = reversed u)) ∧
    ∃ c d, (gate qubits false).circuit? = some (.ok c) ∧
      (gate qubits.reverse true).circuit? = some (.ok d) ∧
      Circuit.unitary (Param.value evaluate) tolerance (c ++ d) n =
        .ok (Mat.identity (2 ^ n)) := by
  intro gate reversed
  have hF := isUnitary_fourierTable qubits.length swaps
  have hA := Mat.isSquare_adjoint hF.1
  refine ⟨?_, ?_⟩
  · obtain ⟨c, hc, hu⟩ := unitary_inverseFourier evaluate tolerance hd hq swaps
    have hmatrix := congrArg some (matrix_fourier (Param.value evaluate) qubits swaps true)
    have hR := isSquare_reversed hA
    exact ⟨c, _, _, congrArg some hc, hmatrix, hA, hu, embed_eq_ok hR hd hq,
      liftGate_of_eq_range hR⟩
  · have hd' : qubits.reverse.Nodup := List.nodup_reverse.mpr hd
    have hq' : ∀ q ∈ qubits.reverse, q < n := fun q hmem => hq q (List.mem_reverse.mp hmem)
    obtain ⟨c, hc, hu⟩ := unitary_fourierCircuit evaluate tolerance hd hq swaps
    obtain ⟨d, hdc, hv⟩ := unitary_inverseFourier evaluate tolerance hd' hq' swaps
    refine ⟨c, d, congrArg some hc, congrArg some hdc, ?_⟩
    rw [List.length_reverse, liftGate_reverse (isSquare_reversed hA) hd hq,
      reversed_reversed hA] at hv
    rw [Circuit.unitary_append _ _ hu hv, ← liftGate_mul hd hq hA hF.1, hF.2,
      liftGate_identity hd hq]

/-- Three qubits of a register of four, listed out of order, with exchanges. -/
theorem inverse_fourier_circuit_on_three :
    ∃ c d, Operation.circuit? (R := ℝ) ⟨.register .qft, [2, 0, 3], true, false, ()⟩ =
        some (.ok c) ∧
      Operation.circuit? (R := ℝ) ⟨.register .qft, [3, 0, 2], true, true, ()⟩ = some (.ok d) ∧
      Circuit.unitary (Param.value fun _ => .error .undefined) 0 (c ++ d) 4 =
        .ok (Mat.identity (2 ^ 4)) :=
  (inverse_fourier_circuit (by decide : [2, 0, 3].Nodup) (by decide : ∀ q ∈ [2, 0, 3], q < 4) true
    (fun _ => .error .undefined) 0).2

end QuantumGates
