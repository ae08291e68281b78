-- The gates of the phase network and of the Fourier circuit on a register, in exact arithmetic.
-- Each spreads a row in a simple way: a controlled flip and an exchange read it elsewhere, and the
-- phases weigh it.
import QuantumGates.Proofs.Circuit.Placement
import QuantumGates.Proofs.Register.Basis
import QuantumGates.Proofs.Register.Selection

namespace QuantumGates

open CMat

/-! ## Tables -/

theorem get_table {R : Type} [Scalar R] {rs : List (List (Cplx R))} {r c : ℕ}
    (hr : r < rs.length) (hc : c < (rs.headD []).length) :
    (table rs).get r c = ((rs[r]?).getD [])[c]?.getD 0 := Mat.get_ofFn _ hr hc

theorem get_scale {m : CMat ℝ} {k : Cplx ℝ} {r c : ℕ} (hr : r < m.rows) (hc : c < m.cols) :
    (Mat.scale k m).get r c = k * m.get r c := Mat.get_ofFn _ hr hc

theorem Operation.onRegister_eq_ok {R : Type} [Scalar R] (value : Param R → Except (Fault R) R)
    (tolerance : R) {n : ℕ} (op : Operation (Param R)) {m : CMat R}
    (h : op.matrix? value tolerance = some (.ok m)) (hm : m.IsSquare (2 ^ op.qubits.length))
    (hd : op.qubits.Nodup) (hq : ∀ q ∈ op.qubits, q < n) :
    op.onRegister value tolerance n = .ok (liftGate m op.qubits n) := by
  unfold onRegister
  rw [h]
  exact embed_eq_ok hm hd hq

/-! ## The exchange -/

section

variable {R : Type} [Scalar R]

/-- The exchange on a register. -/
def swapGate (n p q : ℕ) : CMat R := liftGate (outerInner unitRows flipRows) [p, q] n

theorem onRegister_swap (value : Param R → Except (Fault R) R) (tolerance : R) {n p q : ℕ}
    (hp : p < n) (hq : q < n) (hpq : p ≠ q) :
    (Operation.swap p q).onRegister value tolerance n = .ok (swapGate n p q) := by
  refine Operation.onRegister_eq_ok value tolerance _ rfl ⟨rfl, rfl⟩ ?_ ?_
  · show [p, q].Nodup
    simpa using hpq
  · show ∀ s ∈ [p, q], s < n
    simp [hp, hq]

theorem get_outerInner_flipRows {a b j : ℕ} (ha : a < 2) (hb : b < 2)
    (hj : j < 4) :
    (outerInner unitRows flipRows : CMat R).get (2 * a + b) j =
      if j = 2 * b + a then 1 else 0 := by
  have hunit : ∀ r < 2, ∀ c < 2, (table unitRows : CMat R).get r c = if r = c then 1 else 0 := by
    intro r hr c hc
    rw [get_table hr hc]
    interval_cases r <;> interval_cases c <;> rfl
  have hflip : ∀ r < 2, ∀ c < 2, (table flipRows : CMat R).get r c = if r = c then 0 else 1 := by
    intro r hr c hc
    rw [get_table hr hc]
    interval_cases r <;> interval_cases c <;> rfl
  unfold outerInner
  rw [get_table (by show 2 * a + b < 4; omega) hj]
  simp (disch := omega) only [hunit, hflip]
  interval_cases a <;> interval_cases b <;> interval_cases j <;> rfl

theorem reads_outerInner_flipRows :
    (outerInner unitRows flipRows : CMat R).Reads (2 ^ 2) fun k => 2 * (k % 2) + k / 2 where
  isSquare := ⟨rfl, rfl⟩
  lt k hk := by omega
  get_eq k hk j hj := by
    have hbits : k = 2 * (k / 2) + k % 2 := by omega
    have hget := get_outerInner_flipRows (R := R) (a := k / 2) (b := k % 2) (by omega) (by omega) hj
    rw [← hbits] at hget
    rw [hget]
    unfold Mat.unitEntry
    simp only [eq_comm]

/-- An exchange reads each row at the index with the two bits exchanged. -/
theorem reads_swapGate [BinaryScalar R] {n p q : ℕ} (hp : p < n) (hq : q < n) :
    (swapGate n p q : CMat R).Reads (2 ^ n) (exchangeBits n p q) := by
  have hlt : ∀ s ∈ [p, q], s < n := by simp [hp, hq]
  refine (reads_outerInner_flipRows.lift hlt).congr fun r _ => ?_
  have hbp := bitAt_lt n p r
  have hbq := bitAt_lt n q r
  have hmod : (2 * bitAt n p r + bitAt n q r) % 2 = bitAt n q r := by omega
  have hdiv : (2 * bitAt n p r + bitAt n q r) / 2 = bitAt n p r := by omega
  rw [packBits_two, hmod, hdiv, replaceBits_two hbq hbp]
  rfl

end

section

variable (value : Param ℝ → Except (Fault ℝ) ℝ) (tolerance : ℝ) {n : ℕ}

/-! ## Gates that move the basis -/

/-- The controlled flip on a register. -/
noncomputable def flipGate (n p t : ℕ) : CMat ℝ := liftGate (controlled flipRows) [p, t] n

theorem onRegister_cnot {p t : ℕ} (hp : p < n) (ht : t < n) (hpt : p ≠ t) :
    (Operation.cnot p t).onRegister value tolerance n = .ok (flipGate n p t) := by
  refine Operation.onRegister_eq_ok value tolerance _ rfl ⟨rfl, rfl⟩ ?_ ?_
  · show [p, t].Nodup
    simpa using hpt
  · show ∀ q ∈ [p, t], q < n
    simp [hp, ht]

theorem get_controlled_flipRows {a b j : ℕ} (ha : a < 2) (hb : b < 2) (hj : j < 4) :
    (controlled flipRows : CMat ℝ).get (2 * a + b) j =
      if j = 2 * a + (a + b) % 2 then 1 else 0 := by
  unfold controlled
  rw [get_table (by show 2 * a + b < 4; omega) hj]
  interval_cases a <;> interval_cases b <;> interval_cases j <;> rfl

theorem spreadRow_cnot {p t r : ℕ} (f : ℕ → Cplx ℝ) :
    spreadRow (controlled flipRows) [p, t] n f r = f (flipIf n p t r) := by
  have hp := bitAt_lt n p r
  have ht := bitAt_lt n t r
  rw [spreadRow_eq_of_row (w := 1) (k := 2 * bitAt n p r + (bitAt n p r + bitAt n t r) % 2) f,
    one_mul, replaceBits_two hp (Nat.mod_lt _ (by omega)), setBit_bitAt]
  · unfold flipIf
    rcases bitAt_cases n p r with h | h
    · rw [h, if_neg (by omega), Nat.zero_add, Nat.mod_eq_of_lt ht, setBit_bitAt]
    · have hflip : (1 + bitAt n t r) % 2 = 1 - bitAt n t r := by omega
      rw [h, if_pos rfl, hflip]
  · show _ < 4
    omega
  · intro j hj
    rw [packBits_two]
    exact get_controlled_flipRows hp ht hj

theorem actsOnBasis_flipGate {p t : ℕ} (hp : p < n) (ht : t < n) (hpt : p ≠ t) :
    (flipGate n p t).ActsOnBasis n (flipIf n p t) fun _ => 1 :=
  actsOnBasis_of_moves (fun f _ _ => spreadRow_cnot f) (fun _ => flipIf_lt ht)
    (fun _ _ => flipIf_flipIf hp ht hpt) fun _ _ => flipIf_flipIf hp ht hpt

/-! ## Phases -/

/-- The phase on the state 1 of a qubit of a register. -/
noncomputable def phaseGate (n q : ℕ) (x : ℝ) : CMat ℝ := liftGate (diagonalOf [1, .cis x]) [q] n

theorem onRegister_phaseShift {q : ℕ} {theta : Param ℝ} {x : ℝ} (hx : value theta = .ok x)
    (hq : q < n) :
    (Operation.phaseShift q theta).onRegister value tolerance n = .ok (phaseGate n q x) := by
  refine Operation.onRegister_eq_ok value tolerance (.phaseShift q theta) ?_ ⟨rfl, rfl⟩ ?_ ?_
  · show some (do return diagonalOf [1, ← phaseOf value theta]) = _
    unfold phaseOf
    rw [hx]
    rfl
  · exact List.nodup_singleton q
  · show ∀ s ∈ [q], s < n
    simpa using hq

theorem spreadRow_phaseShift {q r : ℕ} {x : ℝ} (f : ℕ → Cplx ℝ) (hq : q < n) (hr : r < 2 ^ n) :
    spreadRow (diagonalOf [1, .cis x]) [q] n f r = .cis (x * bitAt n q r) * f r := by
  have hpack : packBits n [q] r = bitAt n q r := by simp [packBits_cons]
  refine (spreadRow_diagonal [q] _ f (List.nodup_singleton q) (by simpa using hq) hr).trans
    ?_
  rw [hpack]
  congr 1
  rcases bitAt_cases n q r with h | h
  · rw [h, Nat.cast_zero, mul_zero, Cplx.cis_zero]
    rfl
  · rw [h, Nat.cast_one, mul_one]
    rfl

theorem actsOnBasis_phaseGate {q : ℕ} (x : ℝ) (hq : q < n) :
    (phaseGate n q x).ActsOnBasis n (fun c => c) fun c => .cis (x * bitAt n q c) :=
  actsOnBasis_of_weights fun f _ hr => spreadRow_phaseShift f hq hr

/-- The phase on the state 11 of two qubits of a register. -/
noncomputable def controlledPhaseGate (n p q : ℕ) (x : ℝ) : CMat ℝ :=
  liftGate (diagonalOf [1, 1, 1, .cis x]) [p, q] n

theorem onRegister_controlledPhase {p q : ℕ} (theta : Param ℝ) {x : ℝ} (hx : value theta = .ok x)
    (hp : p < n) (hq : q < n) (hpq : p ≠ q) :
    (Operation.controlledPhase p q theta).onRegister value tolerance n =
      .ok (controlledPhaseGate n p q x) := by
  refine Operation.onRegister_eq_ok value tolerance (.controlledPhase p q theta) ?_
    ⟨rfl, rfl⟩ ?_ ?_
  · show some (do return diagonalOf [1, 1, 1, ← phaseOf value theta]) = _
    unfold phaseOf
    rw [hx]
    rfl
  · show [p, q].Nodup
    simpa using hpq
  · show ∀ s ∈ [p, q], s < n
    simp [hp, hq]

theorem spreadRow_controlledPhase {p q r : ℕ} {x : ℝ} (f : ℕ → Cplx ℝ) (hp : p < n) (hq : q < n)
    (hpq : p ≠ q) (hr : r < 2 ^ n) :
    spreadRow (diagonalOf [1, 1, 1, .cis x]) [p, q] n f r =
      .cis (x * (bitAt n p r * bitAt n q r)) * f r := by
  refine (spreadRow_diagonal [p, q] _ f (by simpa using hpq) (by simp [hp, hq]) hr).trans
    ?_
  rw [packBits_two]
  congr 1
  rcases bitAt_cases n p r with h | h <;> rcases bitAt_cases n q r with h' | h' <;> rw [h, h']
  · simp
  · simp
  · simp
  · simp

end

end QuantumGates
