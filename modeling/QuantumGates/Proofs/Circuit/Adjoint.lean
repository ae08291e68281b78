-- The adjoint of a circuit. Lifting a gate to a register keeps the adjoint, and the adjoint of a
-- product is the product of the adjoints in the other order. So a circuit of unitary gates is
-- unitary, and its gates undone one after the other, the last one first, have the adjoint.
import QuantumGates.Proofs.Circuit.Placement
import QuantumGates.Proofs.Gate.Unitarity

namespace QuantumGates

open CMat Finset

/-! ## Adjoints of products and of lifted gates -/

namespace Mat

variable {a b m : CMat ℝ} {n : ℕ}

/-- The adjoint of a product has the adjoints of the factors in the other order. -/
theorem adjoint_mul (ha : a.IsSquare n) (hb : b.IsSquare n) :
    (a.mul b).transposeWith Cplx.conj =
      (b.transposeWith Cplx.conj).mul (a.transposeWith Cplx.conj) := by
  have ha' := isSquare_adjoint ha
  have hb' := isSquare_adjoint hb
  refine (isSquare_adjoint (ha.mul hb)).ext (hb'.mul ha') fun r hr c hc => ?_
  rw [get_adjoint (ha.mul hb) hr hc, get_mul ha hb hc hr, get_mul hb' ha' hr hc]
  calc (∑ k ∈ range n, a.get c k * b.get k r).conj
      = ∑ k ∈ range n, (a.get c k * b.get k r).conj := map_sum Cplx.conjHom _ _
    _ = ∑ k ∈ range n, (b.transposeWith Cplx.conj).get r k *
          (a.transposeWith Cplx.conj).get k c := by
        refine sum_congr rfl fun k hk => ?_
        have hkn := mem_range.mp hk
        rw [get_adjoint hb hr hkn, get_adjoint ha hkn hc, Cplx.conj_mul, mul_comm]

theorem adjoint_identity (n : ℕ) :
    (identity n : CMat ℝ).transposeWith Cplx.conj = identity n := by
  have h := isSquare_identity (K := Cplx ℝ) n
  refine (isSquare_adjoint h).ext h fun r hr c hc => ?_
  rw [get_adjoint h hr hc, get_identity hc hr, get_identity hr hc]
  by_cases hrc : r = c
  · rw [if_pos hrc, if_pos hrc.symm, Cplx.conj_one]
  · rw [if_neg hrc, if_neg (Ne.symm hrc), Cplx.conj_zero]

/-- The adjoint of a lifted gate is the adjoint of the gate, lifted to the same qubits. -/
theorem adjoint_liftGate {qs : List ℕ} (hm : m.IsSquare (2 ^ qs.length)) (hd : qs.Nodup)
    (hq : ∀ q ∈ qs, q < n) :
    (liftGate m qs n).transposeWith Cplx.conj = liftGate (m.transposeWith Cplx.conj) qs n := by
  have hlift := isSquare_liftGate m qs n
  refine (isSquare_adjoint hlift).ext (isSquare_liftGate _ qs n) fun r hr c hc => ?_
  -- Row and column agree outside the list whichever of them comes first.
  have hsame : replaceBits n qs (packBits n qs r) c = r ↔
      replaceBits n qs (packBits n qs c) r = c := by
    rw [replaceBits_packBits_eq_iff hd hq hc hr, replaceBits_packBits_eq_iff hd hq hr hc]
    constructor
    · intro h q hqn hmem
      exact (h q hqn hmem).symm
    · intro h q hqn hmem
      exact (h q hqn hmem).symm
  rw [get_adjoint hlift hr hc, get_liftGate_packed m hd hq hc hr,
    get_liftGate_packed _ hd hq hr hc,
    get_adjoint hm (packBits_lt n qs r) (packBits_lt n qs c)]
  by_cases h : replaceBits n qs (packBits n qs c) r = c
  · rw [if_pos h, if_pos (hsame.mpr h)]
  · rw [if_neg h, if_neg (mt hsame.mp h), Cplx.conj_zero]

/-! ## Unitary matrices -/

theorem IsUnitary.mul (ha : a.IsUnitary n) (hb : b.IsUnitary n) : (a.mul b).IsUnitary n := by
  have ha' := isSquare_adjoint ha.1
  have hb' := isSquare_adjoint hb.1
  refine ⟨ha.1.mul hb.1, ?_⟩
  calc ((a.mul b).transposeWith Cplx.conj).mul (a.mul b)
      = (b.transposeWith Cplx.conj).mul (((a.transposeWith Cplx.conj).mul a).mul b) := by
        rw [adjoint_mul ha.1 hb.1, assoc_of_isSquare hb' ha' (ha.1.mul hb.1),
          assoc_of_isSquare ha' ha.1 hb.1]
    _ = identity n := by rw [ha.2, identity_mul hb.1, hb.2]

/-- A unitary gate is unitary on every register. -/
theorem IsUnitary.lift {qs : List ℕ} (hm : m.IsUnitary (2 ^ qs.length)) (hd : qs.Nodup)
    (hq : ∀ q ∈ qs, q < n) : (liftGate m qs n).IsUnitary (2 ^ n) := by
  refine ⟨isSquare_liftGate m qs n, ?_⟩
  rw [adjoint_liftGate hm.1 hd hq, ← liftGate_mul hd hq (isSquare_adjoint hm.1) hm.1, hm.2]
  exact liftGate_identity hd hq

end Mat

/-! ## Sequences of unitary gates -/

namespace PlacedGate

/-- A gate with a unitary matrix, on distinct qubits of a register of `n`. -/
def IsUnitaryOn (n : ℕ) (g : PlacedGate ℝ (Cplx ℝ)) : Prop :=
  ∃ m, g.1 = .ok m ∧ m.IsUnitary (2 ^ g.2.length) ∧ g.2.Nodup ∧ ∀ q ∈ g.2, q < n

/-- The gate on the same qubits whose matrix is the adjoint. -/
noncomputable def adjoint (g : PlacedGate ℝ (Cplx ℝ)) : PlacedGate ℝ (Cplx ℝ) :=
  (g.1.map fun m => m.transposeWith Cplx.conj, g.2)

variable {n : ℕ} {g : PlacedGate ℝ (Cplx ℝ)} {gs : List (PlacedGate ℝ (Cplx ℝ))}

/-- What a gate and its adjoint do to a register. -/
theorem IsUnitaryOn.lift (h : g.IsUnitaryOn n) :
    ∃ u : CMat ℝ, g.lift n = .ok u ∧ u.IsUnitary (2 ^ n) ∧
      g.adjoint.lift n = .ok (u.transposeWith Cplx.conj) := by
  obtain ⟨e, qs⟩ := g
  obtain ⟨m, rfl, hm, hd, hq⟩ := h
  refine ⟨liftGate m qs n, embed_eq_ok hm.1 hd hq, hm.lift hd hq, ?_⟩
  show embed (m.transposeWith Cplx.conj) qs n = _
  rw [embed_eq_ok (Mat.isSquare_adjoint hm.1) hd hq, Mat.adjoint_liftGate hm.1 hd hq]

/-- A sequence of unitary gates has a unitary product, and the adjoints in the other order have
its adjoint. -/
theorem product_adjoint (hgs : ∀ g ∈ gs, g.IsUnitaryOn n) :
    ∃ u : CMat ℝ, product n gs = .ok u ∧ u.IsUnitary (2 ^ n) ∧
      product n (gs.reverse.map adjoint) = .ok (u.transposeWith Cplx.conj) := by
  induction gs with
  | nil =>
    refine ⟨Mat.identity (2 ^ n), rfl, Mat.isUnitary_identity n, ?_⟩
    rw [Mat.adjoint_identity]
    rfl
  | cons g gs ih =>
    obtain ⟨m, hlift, hm, hlift'⟩ := (hgs g (by simp)).lift
    obtain ⟨u, hprod, hu, hprod'⟩ := ih fun g' hg' => hgs g' (by simp [hg'])
    refine ⟨u.mul m, product_cons hlift hprod, hu.mul hm, ?_⟩
    rw [List.reverse_cons, List.map_append, Mat.adjoint_mul hu.1 hm.1]
    exact product_append hprod' (product_singleton hlift')

end PlacedGate

/-! ## Circuits -/

/-- A sequence of gates with unitary matrices, each on distinct qubits of a register, has a unitary
matrix in exact arithmetic, and the adjoints of the gates, the last one first, have its adjoint:
for gates given by any matrices, and for circuits of the catalogue. -/
theorem circuit_adjoint (n : ℕ) :
    (∀ gs : List (PlacedGate ℝ (Cplx ℝ)), (∀ g ∈ gs, g.IsUnitaryOn n) →
      ∃ u : CMat ℝ, PlacedGate.product n gs = .ok u ∧ u.IsUnitary (2 ^ n) ∧
        PlacedGate.product n (gs.reverse.map PlacedGate.adjoint) =
          .ok (u.transposeWith Cplx.conj)) ∧
    ∀ (c : Circuit ℝ) (value : Param ℝ → Except (Fault ℝ) ℝ) (tolerance : ℝ),
      (∀ op ∈ c, ∃ m, op.matrix? value tolerance = some (.ok m) ∧
        m.IsUnitary (2 ^ op.qubits.length) ∧ op.qubits.Nodup ∧ ∀ q ∈ op.qubits, q < n) →
      ∃ u : CMat ℝ, c.unitary value tolerance n = .ok u ∧ u.IsUnitary (2 ^ n) ∧
        PlacedGate.product n ((c.toPlaced value tolerance).reverse.map PlacedGate.adjoint) =
          .ok (u.transposeWith Cplx.conj) := by
  refine ⟨fun gs hgs => PlacedGate.product_adjoint hgs, ?_⟩
  intro c value tolerance hc
  rw [Circuit.unitary_eq_product]
  apply PlacedGate.product_adjoint
  intro g hg
  obtain ⟨op, hop, rfl⟩ := List.mem_map.mp hg
  obtain ⟨m, hm, hunitary, hd, hq⟩ := hc op hop
  refine ⟨m, ?_, hunitary, hd, hq⟩
  show op.matrixOrFault value tolerance = .ok m
  rw [Operation.matrixOrFault, hm]
  rfl

/-- A quarter turn and an exchange on the qubits 2 and 0 of three, by their matrices, and a
circuit that mixes, turns and flips them. -/
theorem circuit_adjoint_on_three :
    (∃ u : CMat ℝ,
      PlacedGate.product (R := ℝ) 3
        [(.ok (diagonalOf [1, Cplx.i]), [2]), (.ok (exchange 4 1 2), [2, 0])] = .ok u ∧
      u.IsUnitary (2 ^ 3) ∧
      PlacedGate.product (R := ℝ) 3 [(.ok ((exchange 4 1 2).transposeWith Cplx.conj), [2, 0]),
        (.ok ((diagonalOf [1, Cplx.i]).transposeWith Cplx.conj), [2])] =
          .ok (u.transposeWith Cplx.conj)) ∧
    ∃ u : CMat ℝ,
      Circuit.unitary (Param.value fun _ => .error .undefined) 0
        [.hadamard 2, .rotateZ 0 (.literal 1), .cnot 2 0] 3 = .ok u ∧ u.IsUnitary (2 ^ 3) ∧
      PlacedGate.product 3 ((Circuit.toPlaced (Param.value fun _ => .error .undefined) 0
        [.hadamard 2, .rotateZ 0 (.literal 1), .cnot 2 0]).reverse.map PlacedGate.adjoint) =
          .ok (u.transposeWith Cplx.conj) := by
  constructor
  · apply (circuit_adjoint 3).1
      [(.ok (diagonalOf [1, Cplx.i]), [2]), (.ok (exchange 4 1 2), [2, 0])]
    intro g hg
    simp only [List.mem_cons, List.not_mem_nil, or_false] at hg
    rcases hg with rfl | rfl
    · exact ⟨_, rfl, isUnitary_diagonalOf (n := 1) rfl (by simp [Cplx.i_mul_i]), by decide,
        by decide⟩
    · exact ⟨_, rfl, isUnitary_exchange (k := 2) (by decide) (by decide), by decide, by decide⟩
  · apply (circuit_adjoint 3).2
    intro op hop
    simp only [List.mem_cons, List.not_mem_nil, or_false] at hop
    rcases hop with rfl | rfl | rfl
    · obtain ⟨m, hm, hunitary⟩ := isUnitary_hadamard (fun _ => .error .undefined) 2
      exact ⟨m, congrArg some hm, hunitary, by decide, by decide⟩
    · obtain ⟨m, hm, hunitary⟩ := SingleKind.isUnitary_matrix (fun _ => .error .undefined)
        le_rfl .rotateZ (0, .literal 1, ()) (by decide) rfl
      exact ⟨m, congrArg some hm, hunitary, by decide, by decide⟩
    · obtain ⟨m, hm, hunitary⟩ := TwoKind.isUnitary_matrix (fun _ => .error .undefined) .cnot
        (2, 0, ()) rfl
      exact ⟨m, congrArg some hm, hunitary, by decide, by decide⟩

end QuantumGates
