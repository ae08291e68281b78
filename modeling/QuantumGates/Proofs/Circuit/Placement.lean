-- A circuit on scattered qubits of a large register. The matrix of a circuit is the product of
-- its lifted gates, so a circuit of a small register, its qubits renamed to any distinct qubits
-- of a large one, has the matrix of the small circuit lifted once.
import QuantumGates.Proofs.Circuit.Renaming
import QuantumGates.Proofs.Exact.Numbers
import QuantumGates.Proofs.Register.Product

namespace QuantumGates

section

variable (value : Param ℝ → Except (Fault ℝ) ℝ) (tolerance : ℝ)

namespace Operation

/-- The matrix of an operation, or the fault of having none. -/
noncomputable def matrixOrFault (op : Operation (Param ℝ)) : Except (Fault ℝ) (CMat ℝ) :=
  (op.matrix? value tolerance).getD (.error (.noMatrix op.kind.name))

/-- An operation by its matrix and its qubits. -/
noncomputable def toPlaced (op : Operation (Param ℝ)) : PlacedGate ℝ (Cplx ℝ) :=
  (op.matrixOrFault value tolerance, op.qubits)

theorem onRegister_eq_lift (op : Operation (Param ℝ)) (n : ℕ) :
    op.onRegister value tolerance n = (op.toPlaced value tolerance).lift n := by
  unfold onRegister toPlaced matrixOrFault PlacedGate.lift
  cases op.matrix? value tolerance <;> rfl

end Operation

namespace Circuit

/-- A circuit by the matrices and the qubits of its operations. -/
noncomputable def toPlaced (c : Circuit ℝ) : List (PlacedGate ℝ (Cplx ℝ)) :=
  c.map (Operation.toPlaced value tolerance)

/-- The matrix of a circuit is the product of its lifted gates. -/
theorem unitary_eq_product (c : Circuit ℝ) (n : ℕ) :
    c.unitary value tolerance n = PlacedGate.product n (c.toPlaced value tolerance) := by
  have hfrom : ∀ u, unitaryFrom value tolerance n u c =
      PlacedGate.productFrom n u (c.toPlaced value tolerance) := by
    induction c with
    | nil => exact fun u => rfl
    | cons op c ih =>
      intro u
      rw [unitaryFrom, Operation.onRegister_eq_lift]
      show _ = PlacedGate.productFrom n u (op.toPlaced value tolerance :: toPlaced _ _ c)
      rw [PlacedGate.productFrom]
      cases (op.toPlaced value tolerance).lift n with
      | error f => rfl
      | ok m => exact ih _
  exact hfrom _

theorem unitary_nil (n : ℕ) :
    unitary value tolerance [] n = .ok (Mat.identity (2 ^ n)) := by
  rw [unitary_eq_product]
  rfl

theorem isSquare_unitary {c : Circuit ℝ} {n : ℕ} {u : CMat ℝ}
    (h : c.unitary value tolerance n = .ok u) : u.IsSquare (2 ^ n) := by
  rw [unitary_eq_product] at h
  exact PlacedGate.isSquare_product h

/-- The matrix of one circuit after another. -/
theorem unitary_append {c d : Circuit ℝ} {n : ℕ} {u v : CMat ℝ}
    (hu : c.unitary value tolerance n = .ok u) (hv : d.unitary value tolerance n = .ok v) :
    unitary value tolerance (c ++ d) n = .ok (v.mul u) := by
  rw [unitary_eq_product] at hu hv ⊢
  unfold toPlaced at hu hv ⊢
  rw [List.map_append]
  exact PlacedGate.product_append hu hv

/-- Circuits whose gates have the same matrices one by one have the same matrix. -/
theorem unitary_congr {c d : Circuit ℝ} {n : ℕ}
    (h : c.map (fun op => op.onRegister value tolerance n) =
      d.map fun op => op.onRegister value tolerance n) :
    c.unitary value tolerance n = d.unitary value tolerance n := by
  have hfrom : ∀ u, unitaryFrom value tolerance n u c = unitaryFrom value tolerance n u d := by
    induction c generalizing d with
    | nil =>
      rw [List.map_nil] at h
      rw [List.map_eq_nil_iff.mp h.symm]
      exact fun _ => rfl
    | cons op c ih =>
      cases d with
      | nil => simp at h
      | cons op' d =>
        rw [List.map_cons, List.map_cons, List.cons.injEq] at h
        intro u
        rw [unitaryFrom, unitaryFrom, h.1]
        cases op'.onRegister value tolerance n with
        | error f => rfl
        | ok m => exact ih h.2 _
  exact hfrom _

/-- The matrix of a single gate. -/
theorem unitary_singleton {op : Operation (Param ℝ)} {n : ℕ} {m : CMat ℝ}
    (h : op.onRegister value tolerance n = .ok m) : unitary value tolerance [op] n = .ok m := by
  rw [Operation.onRegister_eq_lift] at h
  rw [unitary_eq_product]
  exact PlacedGate.product_singleton h

theorem unitary_cons {op : Operation (Param ℝ)} {c : Circuit ℝ} {n : ℕ} {m u : CMat ℝ}
    (hm : op.onRegister value tolerance n = .ok m) (hu : c.unitary value tolerance n = .ok u) :
    unitary value tolerance (op :: c) n = .ok (u.mul m) :=
  unitary_append value tolerance (unitary_singleton value tolerance hm) hu

end Circuit

end

/-! ## Placing a circuit -/

/-- The new name of qubit `q` when the qubits of a small register stand for the listed ones. -/
def placeOn {R : Type} (qs : List ℕ) (q : ℕ) : Except (Fault R) ℕ :=
  match qs[q]? with
  | some p => .ok p
  | none => .error (.unmappedQubit q)

theorem placeOn_eq_ok {R : Type} {qs : List ℕ} {q : ℕ} (h : q < qs.length) :
    (placeOn qs q : Except (Fault R) ℕ) = .ok (qs[q]?.getD 0) := by
  unfold placeOn
  rw [List.getElem?_eq_getElem h]
  rfl

theorem Operation.toPlaced_renamed (value : Param ℝ → Except (Fault ℝ) ℝ) (tolerance : ℝ)
    (qs : List ℕ) (op : Operation (Param ℝ)) :
    (op.renamed fun q => qs[q]?.getD 0).toPlaced value tolerance =
      (op.toPlaced value tolerance).place qs := by
  unfold toPlaced matrixOrFault PlacedGate.place placed
  rw [matrix?_renamed, qubits_renamed]
  rfl

/-- A circuit placed on distinct qubits of a register has the matrix of the circuit lifted to
these qubits: for gates given by any matrices over a commutative ring, faults in their place
included, and for circuits of the catalogue over the complex numbers. -/
theorem unitary_of_placed_circuit (qs : List ℕ) (n : ℕ) (hd : qs.Nodup) (hq : ∀ q ∈ qs, q < n) :
    (∀ (R K : Type) [CommRing K] (gs : List (PlacedGate R K)),
      (∀ g ∈ gs, g.2.Nodup ∧ ∀ p ∈ g.2, p < qs.length) →
      PlacedGate.product n (gs.map (PlacedGate.place qs)) =
        (PlacedGate.product qs.length gs).bind fun u => embed u qs n) ∧
    ∀ (c : Circuit ℝ) (value : Param ℝ → Except (Fault ℝ) ℝ) (tolerance : ℝ),
      (∀ op ∈ c, op.qubits.Nodup ∧ ∀ p ∈ op.qubits, p < qs.length) →
      ∃ d : Circuit ℝ, c.remap (placeOn (R := ℝ) qs) = .ok d ∧
        d.unitary value tolerance n =
          (c.unitary value tolerance qs.length).bind fun u => embed u qs n := by
  refine ⟨fun R K _ gs hgs => PlacedGate.product_place hd hq hgs, ?_⟩
  intro c value tolerance hc
  refine ⟨_, Circuit.remap_eq_ok fun op hop q hmem => placeOn_eq_ok ((hc op hop).2 q hmem), ?_⟩
  have hplaced : Circuit.toPlaced value tolerance
      (c.map (Operation.renamed fun q => qs[q]?.getD 0)) =
        (c.toPlaced value tolerance).map (PlacedGate.place qs) := by
    unfold Circuit.toPlaced
    rw [List.map_map, List.map_map]
    exact List.map_congr_left fun op _ => Operation.toPlaced_renamed value tolerance qs op
  rw [Circuit.unitary_eq_product, Circuit.unitary_eq_product, hplaced]
  refine PlacedGate.product_place hd hq fun g hg => ?_
  obtain ⟨op, hop, rfl⟩ := List.mem_map.mp hg
  exact hc op hop

/-- A Hadamard gate and a controlled flip on the qubits 2 and 0 of three. -/
theorem unitary_of_circuit_on_two_and_zero :
    ∃ d : Circuit ℝ,
      Circuit.remap [.hadamard 0, .cnot 0 1] (placeOn (R := ℝ) [2, 0]) = .ok d ∧
        d.unitary (Param.value fun _ => .error .undefined) 0 3 =
          (Circuit.unitary (Param.value fun _ => .error .undefined) 0
            [.hadamard 0, .cnot 0 1] 2).bind fun u => embed u [2, 0] 3 :=
  (unitary_of_placed_circuit [2, 0] 3 (by decide) (by decide)).2 [.hadamard 0, .cnot 0 1] _ 0 (by
    intro op hop
    simp only [List.mem_cons, List.not_mem_nil, or_false] at hop
    rcases hop with rfl | rfl
    · exact ⟨by decide, by decide⟩
    · exact ⟨by decide, by decide⟩)

end QuantumGates
