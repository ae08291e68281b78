-- Operations on disjoint qubits change places. What one of them reads and writes the other one
-- leaves alone, so their lifted matrices commute, whatever the order of their qubits in the
-- register. A circuit keeps its matrix when neighbours on disjoint qubits are exchanged, and so
-- under any number of exchanges.
import QuantumGates.Proofs.Circuit.Placement

namespace QuantumGates

open CMat Finset

/-! ## Gates on disjoint qubits -/

section

variable {K : Type} [CommSemiring K]

/-- A row of a product of two gates on disjoint qubits, the rows of both spread at once. -/
theorem get_liftGate_mul_liftGate {a b : Mat K} {ps qs : List ℕ} {n r c : ℕ}
    (hdis : ps.Disjoint qs) (hp : ∀ p ∈ ps, p < n) (hq : ∀ q ∈ qs, q < n) (hr : r < 2 ^ n)
    (hc : c < 2 ^ n) :
    ((liftGate a ps n).mul (liftGate b qs n)).get r c =
      ∑ i ∈ range (2 ^ ps.length), ∑ j ∈ range (2 ^ qs.length),
        a.get (packBits n ps r) i * b.get (packBits n qs r) j *
          (if replaceBits n qs j (replaceBits n ps i r) = c then 1 else 0) := by
  rw [get_liftGate_mul hp (isSquare_liftGate b qs n) hr hc, spreadRow]
  refine sum_congr rfl fun i _ => ?_
  rw [get_liftGate (replaceBits_lt hp hr) hc, spreadRow, mul_sum,
    packBits_replaceBits_of_disjoint hdis.symm hq hp]
  exact sum_congr rfl fun j _ => (mul_assoc _ _ _).symm

/-- Gates on disjoint qubits commute. -/
theorem liftGate_comm {a b : Mat K} {ps qs : List ℕ} {n : ℕ} (hdis : ps.Disjoint qs)
    (hdp : ps.Nodup) (hp : ∀ p ∈ ps, p < n) (hdq : qs.Nodup) (hq : ∀ q ∈ qs, q < n) :
    (liftGate a ps n).mul (liftGate b qs n) = (liftGate b qs n).mul (liftGate a ps n) := by
  have ha := isSquare_liftGate a ps n
  have hb := isSquare_liftGate b qs n
  refine (ha.mul hb).ext (hb.mul ha) fun r hr c hc => ?_
  rw [get_liftGate_mul_liftGate hdis hp hq hr hc,
    get_liftGate_mul_liftGate hdis.symm hq hp hr hc, sum_comm]
  refine sum_congr rfl fun j _ => sum_congr rfl fun i _ => ?_
  rw [replaceBits_comm hdis hdp hp hdq hq hr, mul_comm (a.get _ _)]

end

/-! ## Exchanges -/

/-- Two neighbours on disjoint qubits change places. -/
inductive Exchange {α : Type} (qubits : α → List ℕ) : List α → List α → Prop
  | swap (before after : List α) (a b : α) (h : (qubits a).Disjoint (qubits b)) :
      Exchange qubits (before ++ a :: b :: after) (before ++ b :: a :: after)

/-- Any number of exchanges, one after the other. -/
abbrev Exchanges {α : Type} (qubits : α → List ℕ) : List α → List α → Prop :=
  Relation.ReflTransGen (Exchange qubits)

namespace Exchange

variable {α β : Type} {qubits : α → List ℕ} {xs ys : List α}

theorem symm (h : Exchange qubits xs ys) : Exchange qubits ys xs := by
  obtain ⟨before, after, a, b, hdis⟩ := h
  exact .swap before after b a hdis.symm

theorem perm (h : Exchange qubits xs ys) : xs.Perm ys := by
  obtain ⟨before, after, a, b, -⟩ := h
  exact (List.Perm.swap b a after).append_left before

/-- An exchange is one of what stands for the items, if it acts on the same qubits. -/
theorem map {qubits' : β → List ℕ} (f : α → β) (hf : ∀ a, qubits' (f a) = qubits a)
    (h : Exchange qubits xs ys) : Exchange qubits' (xs.map f) (ys.map f) := by
  obtain ⟨before, after, a, b, hdis⟩ := h
  rw [← hf a, ← hf b] at hdis
  simpa using Exchange.swap (before.map f) (after.map f) (f a) (f b) hdis

end Exchange

namespace Exchanges

variable {α β : Type} {qubits : α → List ℕ} {xs ys : List α}

theorem perm (h : Exchanges qubits xs ys) : xs.Perm ys := by
  induction h with
  | refl => exact List.Perm.refl _
  | tail _ hstep ih => exact ih.trans hstep.perm

theorem map {qubits' : β → List ℕ} (h : Exchanges qubits xs ys) (f : α → β)
    (hf : ∀ a, qubits' (f a) = qubits a) : Exchanges qubits' (xs.map f) (ys.map f) :=
  h.lift (List.map f) fun _ _ hstep => hstep.map f hf

end Exchanges

/-! ## Products after an exchange -/

namespace PlacedGate

variable {R K : Type} [CommSemiring K] {n : ℕ} {u : Mat K}

/-- Lifted gates on disjoint qubits commute. -/
theorem lift_comm {g h : PlacedGate R K} {a b : Mat K} (hdis : g.2.Disjoint h.2)
    (ha : g.lift n = .ok a) (hb : h.lift n = .ok b) : a.mul b = b.mul a := by
  obtain ⟨e, ps⟩ := g
  obtain ⟨e', qs⟩ := h
  cases e with
  | error f => cases ha
  | ok m =>
    cases e' with
    | error f => cases hb
    | ok m' =>
      obtain ⟨-, hdp, hp, rfl⟩ := embed_eq_ok_iff.mp ha
      obtain ⟨-, hdq, hq, rfl⟩ := embed_eq_ok_iff.mp hb
      exact liftGate_comm hdis hdp hp hdq hq

/-- One exchange of neighbours keeps the product. -/
theorem product_of_exchange {gs hs : List (PlacedGate R K)} (h : Exchange Prod.snd gs hs)
    (hu : product n gs = .ok u) : product n hs = .ok u := by
  obtain ⟨before, after, g, h, hdis⟩ := h
  induction before generalizing u with
  | nil =>
    obtain ⟨a, w, ha, hw, rfl⟩ := product_cons_eq_ok_iff.mp hu
    obtain ⟨b, v, hb, hv, rfl⟩ := product_cons_eq_ok_iff.mp hw
    have hsa := isSquare_lift ha
    have hsb := isSquare_lift hb
    have hsv := isSquare_product hv
    have hmul : (v.mul b).mul a = (v.mul a).mul b := by
      rw [Mat.assoc_of_isSquare hsv hsb hsa, ← lift_comm hdis ha hb,
        Mat.assoc_of_isSquare hsv hsa hsb]
    rw [hmul]
    exact product_cons hb (product_cons ha hv)
  | cons k before ih =>
    obtain ⟨a, v, ha, hv, rfl⟩ := product_cons_eq_ok_iff.mp hu
    exact product_cons ha (ih hv)

/-- Any number of exchanges keeps the product. -/
theorem product_of_exchanges {gs hs : List (PlacedGate R K)} (h : Exchanges Prod.snd gs hs) :
    product n gs = .ok u ↔ product n hs = .ok u := by
  induction h with
  | refl => exact Iff.rfl
  | tail _ hstep ih =>
    rw [ih]
    constructor
    · exact product_of_exchange hstep
    · exact product_of_exchange hstep.symm

end PlacedGate

/-! ## Circuits after an exchange -/

namespace Circuit

variable {R : Type} {c d : Circuit R}

/-- The least register as a fold that no order matters to. -/
theorem numberOfQubits_eq (c : Circuit R) :
    c.numberOfQubits = (c.flatMap Operation.qubits).foldr (fun q k => max (q + 1) k) 0 := by
  unfold numberOfQubits
  cases c.flatMap Operation.qubits with
  | nil => rfl
  | cons q qs =>
    have hfold : ∀ k, qs.foldl max k + 1 = max (k + 1) (qs.foldr (fun q k => max (q + 1) k) 0) := by
      induction qs with
      | nil =>
        intro k
        exact (Nat.max_zero (k + 1)).symm
      | cons p qs ih =>
        intro k
        rw [List.foldl_cons, ih, List.foldr_cons]
        omega
    exact hfold q

theorem numberOfQubits_of_perm (h : c.Perm d) : c.numberOfQubits = d.numberOfQubits := by
  rw [numberOfQubits_eq, numberOfQubits_eq]
  have hcomm : LeftCommutative fun q k => max (q + 1) k := ⟨fun p q k => by omega⟩
  exact (h.flatMap_right Operation.qubits).foldr_eq 0

end Circuit

/-- The lifted matrices of gates on disjoint qubits of a register commute. So sequences that differ
by exchanges of neighbours on disjoint qubits, any number of them, have the same matrix or none:
for gates given by any matrices, and for circuits of the catalogue, whose least register is the
same too. -/
theorem disjoint_neighbours_change_places (n : ℕ) :
    (∀ (R K : Type) [CommSemiring K] (a b : Mat K) (ps qs : List ℕ),
      a.IsSquare (2 ^ ps.length) → b.IsSquare (2 ^ qs.length) →
      ps.Nodup → (∀ p ∈ ps, p < n) → qs.Nodup → (∀ q ∈ qs, q < n) → ps.Disjoint qs →
      ∃ u v, (embed a ps n : Except (Fault R) (Mat K)) = .ok u ∧
        (embed b qs n : Except (Fault R) (Mat K)) = .ok v ∧ u.mul v = v.mul u) ∧
    (∀ (R K : Type) [CommSemiring K] (gs hs : List (PlacedGate R K)),
      Exchanges Prod.snd gs hs →
      ∀ u, PlacedGate.product n gs = .ok u ↔ PlacedGate.product n hs = .ok u) ∧
    ∀ (c d : Circuit ℝ) (value : Param ℝ → Except (Fault ℝ) ℝ) (tolerance : ℝ),
      Exchanges Operation.qubits c d →
      c.numberOfQubits = d.numberOfQubits ∧
        ∀ u, c.unitary value tolerance n = .ok u ↔ d.unitary value tolerance n = .ok u := by
  refine ⟨?_, ?_, ?_⟩
  · intro R K _ a b ps qs ha hb hdp hp hdq hq hdis
    exact ⟨liftGate a ps n, liftGate b qs n, embed_eq_ok ha hdp hp, embed_eq_ok hb hdq hq,
      liftGate_comm hdis hdp hp hdq hq⟩
  · intro R K _ gs hs h u
    exact PlacedGate.product_of_exchanges h
  · intro c d value tolerance h
    refine ⟨Circuit.numberOfQubits_of_perm h.perm, fun u => ?_⟩
    rw [Circuit.unitary_eq_product, Circuit.unitary_eq_product]
    apply PlacedGate.product_of_exchanges
    exact h.map (Operation.toPlaced value tolerance) fun _ => rfl

/-- Of two controlled flips on the qubits 0, 2 and 3, 1 and a Hadamard gate on qubit 0, the second
flip comes first after two exchanges. -/
theorem flips_change_places :
    (∃ u v, (embed (exchange 4 2 3) [0, 2] 4 : Except (Fault ℝ) (CMat ℝ)) = .ok u ∧
      (embed (exchange 4 2 3) [3, 1] 4 : Except (Fault ℝ) (CMat ℝ)) = .ok v ∧
      u.mul v = v.mul u) ∧
    Circuit.numberOfQubits (R := ℝ) [.cnot 0 2, .hadamard 0, .cnot 3 1] =
      Circuit.numberOfQubits (R := ℝ) [.cnot 3 1, .cnot 0 2, .hadamard 0] ∧
    ∀ u, Circuit.unitary (R := ℝ) (Param.value fun _ => .error .undefined) 0
        [.cnot 0 2, .hadamard 0, .cnot 3 1] 4 = .ok u ↔
      Circuit.unitary (R := ℝ) (Param.value fun _ => .error .undefined) 0
        [.cnot 3 1, .cnot 0 2, .hadamard 0] 4 = .ok u := by
  refine ⟨(disjoint_neighbours_change_places 4).1 ℝ (Cplx ℝ) _ _ [0, 2] [3, 1] ⟨rfl, rfl⟩
    ⟨rfl, rfl⟩ (by decide) (by decide) (by decide) (by decide) (by simp), ?_⟩
  apply (disjoint_neighbours_change_places 4).2.2
  have hfirst : Exchange Operation.qubits
      [(.cnot 0 2 : Operation (Param ℝ)), .hadamard 0, .cnot 3 1]
      [.cnot 0 2, .cnot 3 1, .hadamard 0] :=
    .swap [.cnot 0 2] [] (Operation.hadamard 0) (Operation.cnot 3 1)
      (show [0].Disjoint [3, 1] by simp)
  have hsecond : Exchange Operation.qubits
      [(.cnot 0 2 : Operation (Param ℝ)), .cnot 3 1, .hadamard 0]
      [.cnot 3 1, .cnot 0 2, .hadamard 0] :=
    .swap [] [.hadamard 0] (Operation.cnot 0 2) (Operation.cnot 3 1)
      (show [0, 2].Disjoint [3, 1] by simp)
  exact (Relation.ReflTransGen.single hfirst).tail hsecond

end QuantumGates
