-- The circuits of composite gates as a whole. The gates of a circuit are small ones on the qubits of
-- the composite gate, the circuit tells the same involved qubits and the same need for values, and
-- with numbers as parameters it has a matrix on every register that holds the qubits.
import QuantumGates.Circuit.Unitary
import QuantumGates.Proofs.Circuit.MappedQubits
import QuantumGates.Proofs.Circuit.SmallCircuits
import QuantumGates.Proofs.Gate.Answers
import QuantumGates.Proofs.Register.Product

namespace QuantumGates

/-! ## Involved qubits -/

theorem eraseDups_sublist (xs : List ℤ) : xs.eraseDups.Sublist xs := by
  induction h : xs.length using Nat.strong_induction_on generalizing xs with
  | _ n ih =>
    cases xs with
    | nil => exact .slnil
    | cons x xs =>
      subst h
      rw [List.eraseDups_cons]
      have hlength := List.length_filter_le (fun y => !y == x) xs
      exact ((ih _ (by simpa using Nat.lt_succ_of_le hlength) _ rfl).trans
        List.filter_sublist).cons_cons x

theorem nodup_eraseDups (xs : List ℤ) : xs.eraseDups.Nodup := by
  induction h : xs.length using Nat.strong_induction_on generalizing xs with
  | _ n ih =>
    cases xs with
    | nil => exact List.nodup_nil
    | cons x xs =>
      subst h
      rw [List.eraseDups_cons]
      have hlength := List.length_filter_le (fun y => !y == x) xs
      refine List.nodup_cons.mpr ⟨?_, ih _ (by simpa using Nat.lt_succ_of_le hlength) _ rfl⟩
      rw [List.mem_eraseDups, List.mem_filter]
      simp

/-- Lists with the same members are put into the same order. -/
theorem Involved.ordered_congr {xs ys : List ℤ} (h : ∀ i, i ∈ xs ↔ i ∈ ys) :
    ordered xs = ordered ys := by
  have hsorted (zs : List ℤ) : (ordered zs).Pairwise (· ≤ ·) := by
    have htrans (a b c : ℤ) (hab : decide (a ≤ b) = true) (hbc : decide (b ≤ c) = true) :
        decide (a ≤ c) = true :=
      decide_eq_true ((of_decide_eq_true hab).trans (of_decide_eq_true hbc))
    have htotal (a b : ℤ) : (decide (a ≤ b) || decide (b ≤ a)) = true := by
      simp only [Bool.or_eq_true, decide_eq_true_eq]
      exact le_total a b
    have hmerge := List.pairwise_mergeSort htrans htotal zs
    exact (hmerge.imp fun hab => of_decide_eq_true hab).sublist (eraseDups_sublist _)
  have hmem (zs : List ℤ) (i : ℤ) : i ∈ ordered zs ↔ i ∈ zs := by
    unfold ordered
    rw [List.mem_eraseDups, List.mem_mergeSort]
  refine List.Perm.eq_of_pairwise (fun a b _ _ hab hba => le_antisymm hab hba) (hsorted xs)
    (hsorted ys) ((List.perm_ext_iff_of_nodup (nodup_eraseDups _) (nodup_eraseDups _)).mpr ?_)
  intro i
  exact ((hmem xs i).trans (h i)).trans (hmem ys i).symm

theorem Involved.of_congr {qs rs : List ℕ} (h : ∀ q, q ∈ qs ↔ q ∈ rs) : of qs = of rs := by
  refine congrArg (Involved.mk .set) (ordered_congr fun i => ?_)
  simp only [List.mem_map, h]

section

variable {R : Type} [Scalar R] {op : Operation (Param R)} {c : Circuit R}

/-- A circuit involves the qubits of its gate. -/
theorem involved_circuit (hc : op.circuit? = some (.ok c)) (hne : op.qubits ≠ []) :
    Circuit.involved c = op.involved := by
  have hmem (q : ℕ) : q ∈ c.flatMap Operation.qubits ↔ q ∈ op.qubits := by
    rw [List.mem_flatMap]
    constructor
    · rintro ⟨o, ho, hq⟩
      exact Operation.mem_qubits_of_circuit hc ho hq
    · intro hq
      exact Operation.mentions_circuit hc hq
  have hsome : (c.flatMap Operation.qubits).isEmpty = false := by
    rw [List.isEmpty_eq_false_iff]
    exact List.ne_nil_of_mem ((hmem _).mpr (List.head_mem hne))
  unfold Circuit.involved
  simp only [hsome, Bool.false_eq_true, if_false]
  exact Involved.of_congr hmem

end

/-! ## Matrices -/

section

variable {evaluate : String → Except (Fault Float) Float} {tolerance : Float}
  {op : Operation (Param Float)} {n : ℕ}

theorem Param.exists_value {theta : Param Float} (h : theta.isSymbolic = false) :
    ∃ x, theta.value evaluate = .ok x := by
  cases theta with
  | literal x => exact ⟨x, rfl⟩
  | expression s => cases h

theorem Operation.exists_onRegister {m : CMat Float}
    (hm : op.matrix? (Param.value evaluate) tolerance = some (.ok m))
    (hsquare : m.IsSquare (2 ^ op.qubits.length)) (hd : op.qubits.Nodup)
    (hq : ∀ q ∈ op.qubits, q < n) :
    ∃ u, op.onRegister (Param.value evaluate) tolerance n = .ok u := by
  refine ⟨liftGate m op.qubits n, ?_⟩
  unfold onRegister
  rw [hm]
  exact embed_eq_ok hsquare hd hq

theorem Operation.IsSmall.qubits_nodup (h : op.IsSmall) : op.qubits.Nodup := by
  cases h with
  | hadamard | pauliX | tGate | rotateZ | phaseShift => exact List.nodup_singleton _
  | cnot hne | swap hne | controlledPhase hne =>
    exact List.nodup_cons.mpr ⟨fun hmem => hne (List.mem_singleton.mp hmem), List.nodup_singleton _⟩

theorem Operation.IsSmall.length_qubits (h : op.IsSmall) :
    op.qubits.length = 1 ∨ op.qubits.length = 2 := by
  cases h with
  | hadamard | pauliX | tGate | rotateZ | phaseShift => exact .inl rfl
  | cnot | swap | controlledPhase => exact .inr rfl

/-- A small gate without expressions has a matrix of its size. -/
theorem Operation.IsSmall.exists_matrix (h : op.IsSmall) (hplain : op.isParametrized = false) :
    ∃ m, op.matrix? (Param.value evaluate) tolerance = some (.ok m) ∧
      m.IsSquare (2 ^ op.qubits.length) := by
  cases h with
  | pauliX | tGate | cnot | swap => exact ⟨_, rfl, rfl, rfl⟩
  | hadamard q =>
    obtain ⟨f, hf⟩ := outcome_invRootTwo.exists_ok trivial
    refine ⟨Mat.scale (CMat.real f) (CMat.table [[1, 1], [1, -1]]), ?_, rfl, rfl⟩
    show some (invRootTwo >>= _) = _
    rw [hf]
    rfl
  | rotateZ q theta =>
    obtain ⟨x, hx⟩ := Param.exists_value ((isParametrized_rotateZ q theta).symm.trans hplain)
    refine ⟨CMat.table [[(Cplx.cis (fraction 1 2 * x)).conj, 0], [0, Cplx.cis (fraction 1 2 * x)]],
      ?_, rfl, rfl⟩
    show some (theta.value evaluate >>= _) = _
    rw [hx]
    rfl
  | phaseShift q theta =>
    obtain ⟨x, hx⟩ := Param.exists_value ((isParametrized_phaseShift q theta).symm.trans hplain)
    refine ⟨CMat.diagonalOf [1, Cplx.cis x], ?_, rfl, rfl⟩
    show some ((theta.value evaluate).map Cplx.cis >>= _) = _
    rw [hx]
    rfl
  | controlledPhase hne theta =>
    obtain ⟨x, hx⟩ := Param.exists_value ((Bool.or_false _).symm.trans hplain)
    refine ⟨CMat.diagonalOf [1, 1, 1, Cplx.cis x], ?_, rfl, rfl⟩
    show some ((theta.value evaluate).map Cplx.cis >>= _) = _
    rw [hx]
    rfl

/-- What a run over a circuit of small gates without expressions has multiplied so far is
multiplied on. -/
theorem Circuit.exists_unitaryFrom {c : Circuit Float} (hsmall : ∀ op ∈ c, op.IsSmall)
    (hplain : ∀ op ∈ c, op.isParametrized = false) (hq : ∀ op ∈ c, ∀ q ∈ op.qubits, q < n)
    (u : CMat Float) :
    ∃ v, Circuit.unitaryFrom (Param.value evaluate) tolerance n u c = .ok v := by
  induction c generalizing u with
  | nil => exact ⟨u, rfl⟩
  | cons op c ih =>
    obtain ⟨hop, hsmall⟩ := List.forall_mem_cons.mp hsmall
    obtain ⟨hliteral, hplain⟩ := List.forall_mem_cons.mp hplain
    obtain ⟨hfits, hq⟩ := List.forall_mem_cons.mp hq
    obtain ⟨m, hm, hsquare⟩ := hop.exists_matrix hliteral
    obtain ⟨w, hw⟩ := Operation.exists_onRegister hm hsquare hop.qubits_nodup hfits
    obtain ⟨v, hv⟩ := ih hsmall hplain hq (w.mul u)
    refine ⟨v, ?_⟩
    unfold unitaryFrom
    rw [hw]
    exact hv

/-- A circuit of small gates without expressions has a matrix. -/
theorem Circuit.IsBuilt.exists_unitary {c : Circuit Float} (h : c.IsBuilt false)
    (hq : ∀ op ∈ c, ∀ q ∈ op.qubits, q < n) :
    ∃ u, c.unitary (Param.value evaluate) tolerance n = .ok u := by
  have hplain : ∀ op ∈ c, op.isParametrized = false := fun op hop =>
    Bool.eq_false_iff.mpr (List.any_eq_false.mp h.isParametrized_eq op hop)
  exact Circuit.exists_unitaryFrom h.isSmall hplain hq _

/-! ## Composite gates -/

/-- A composite gate on distinct qubits has a circuit of small gates, each on one or two distinct
qubits of the gate. It involves the qubits of the gate and waits for values if the gate does; if
the parameters are finite numbers it has a matrix on every register that holds the qubits. -/
theorem composite_circuit_of_small_gates {c : Circuit Float} (hc : op.circuit? = some (.ok c))
    (hne : op.qubits ≠ []) (hd : op.qubits.Nodup) :
    (∀ o ∈ c, o.IsSmall ∧ (o.qubits.length = 1 ∨ o.qubits.length = 2) ∧ o.qubits.Nodup ∧
      ∀ q ∈ o.qubits, q ∈ op.qubits) ∧
    c.involved = op.involved ∧
    c.isParametrized = op.isParametrized ∧
    ((∀ p ∈ op.parameters, ∃ x : Float, p = .literal x ∧ x.isFinite = true) →
      ∀ (evaluate : String → Except (Fault Float) Float) (tolerance : Float) (n : ℕ),
        (∀ q ∈ op.qubits, q < n) →
        ∃ u, c.unitary (Param.value evaluate) tolerance n = .ok u) := by
  have hbuilt := Operation.isBuilt_circuit hc hne hd
  have hqubits (o : Operation (Param Float)) (ho : o ∈ c) (q : ℕ) (hq : q ∈ o.qubits) :
      q ∈ op.qubits := Operation.mem_qubits_of_circuit hc ho hq
  refine ⟨fun o ho => ?_, involved_circuit hc hne, hbuilt.isParametrized_eq, ?_⟩
  · have hsmall := hbuilt.isSmall o ho
    exact ⟨hsmall, hsmall.length_qubits, hsmall.qubits_nodup, hqubits o ho⟩
  · intro hfinite evaluate tolerance n hn
    have hliteral : op.isParametrized = false := by
      refine List.any_eq_false.mpr fun p hp => ?_
      obtain ⟨x, rfl, -⟩ := hfinite p hp
      exact Bool.false_ne_true
    rw [hliteral] at hbuilt
    exact hbuilt.exists_unitary fun o ho q hq => hn q (hqubits o ho q hq)

/-- A rotation by half a turn of the parity of three qubits on a register of four. -/
theorem parity_rotation_of_small_gates :
    let gate : Operation (Param Float) := ⟨.register .zz, [3, 0, 2], .literal Double.pi, ()⟩
    let c : Circuit Float := [.cnot 3 0, .cnot 0 2, .rotateZ 2 (.literal Double.pi), .cnot 0 2,
      .cnot 3 0]
    gate.circuit? = some (.ok c) ∧ (∀ o ∈ c, o.IsSmall) ∧ c.involved = gate.involved ∧
      ∀ evaluate tolerance, ∃ u, c.unitary (Param.value evaluate) tolerance 4 = .ok u := by
  intro gate c
  have hc : gate.circuit? = some (.ok c) := rfl
  have hne : gate.qubits ≠ [] := List.cons_ne_nil 3 [0, 2]
  have hd : gate.qubits.Nodup := by decide
  have hfinite : ∀ p ∈ gate.parameters, ∃ x : Float, p = .literal x ∧ x.isFinite = true :=
    List.forall_mem_singleton.mpr ⟨Double.pi, rfl, rfl⟩
  obtain ⟨hsmall, hinvolved, -, hunitary⟩ := composite_circuit_of_small_gates hc hne hd
  exact ⟨hc, fun o ho => (hsmall o ho).1, hinvolved, fun evaluate tolerance =>
    hunitary hfinite evaluate tolerance 4 (by decide)⟩

end

end QuantumGates
