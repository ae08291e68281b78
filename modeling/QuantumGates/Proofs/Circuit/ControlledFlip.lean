-- The flip of one qubit that others control. Hadamard gates on the target turn the sign of the
-- state of ones into this flip, so the ladder of three qubits and the parity network both become
-- the flip of the last listed qubit. It is the matrix that exchanges the last two states, lifted
-- to the listed qubits, whatever number of them there is.
import Mathlib.Logic.Equiv.Basic
import QuantumGates.Proofs.Circuit.Ladder
import QuantumGates.Proofs.Exact.Conjugate
import QuantumGates.Proofs.Exact.Fourier

namespace QuantumGates

open CMat

/-! ## The exchange of the last two states -/

theorem actsOnBasis_exchange {k a b : ℕ} (ha : a < 2 ^ k) (hb : b < 2 ^ k) :
    (exchange (2 ^ k) a b : CMat ℝ).ActsOnBasis k (Equiv.swap a b) fun _ => 1 := by
  refine ⟨⟨rfl, rfl⟩, fun c hc => ⟨?_, fun r hr => ?_⟩⟩
  · rw [Equiv.swap_apply_def]
    split_ifs
    · exact hb
    · exact ha
    · exact hc
  · have hget : (exchange (2 ^ k) a b : CMat ℝ).get r c =
        if (if r = a then b else if r = b then a else r) = c then 1 else 0 :=
      Mat.get_ofFn _ hr hc
    rw [hget, ← Equiv.swap_apply_def]
    by_cases h : r = Equiv.swap a b c
    · rw [if_pos h, h, Equiv.swap_apply_self, if_pos rfl]
    · rw [if_neg h, if_neg]
      intro heq
      rw [← heq, Equiv.swap_apply_self] at h
      exact h rfl

/-- The matrix on `k` qubits that exchanges the last two states. -/
noncomputable def lastExchange (k : ℕ) : CMat ℝ := exchange (2 ^ k) (2 ^ k - 2) (2 ^ k - 1)

theorem isSquare_lastExchange (k : ℕ) : (lastExchange k).IsSquare (2 ^ k) := ⟨rfl, rfl⟩

theorem get_lastExchange {k r c : ℕ} (hr : r < 2 ^ k) (hc : c < 2 ^ k) :
    (lastExchange k).get r c =
      Mat.unitEntry
        (if r = 2 ^ k - 2 then 2 ^ k - 1 else if r = 2 ^ k - 1 then 2 ^ k - 2 else r) c :=
  Mat.get_ofFn _ hr hc

/-- The matrix of the flip of the last qubit that all others control. -/
theorem matrix_controlledNot (value : Param ℝ → Except (Fault ℝ) ℝ) {qs : List ℕ}
    (hne : qs ≠ []) : RegisterKind.cnot.matrix value (qs, ()) = .ok (lastExchange qs.length) := by
  have hempty : qs.isEmpty = false := by simpa using hne
  show (if qs.isEmpty then _ else _) = _
  rw [hempty]
  rfl

section

variable {n t : ℕ} {controls : List ℕ}

theorem notMem_of_nodup_append (hd : (controls ++ [t]).Nodup) : t ∉ controls := by
  rw [List.nodup_append] at hd
  intro hmem
  exact hd.2.2 t hmem t (by simp) rfl

/-- To exchange the last two packed states is to flip the last listed bit if all others are 1. -/
theorem replaceBits_swap_last (hd : (controls ++ [t]).Nodup) (hq : ∀ q ∈ controls ++ [t], q < n)
    {x : ℕ} (hx : x < 2 ^ n) :
    replaceBits n (controls ++ [t])
        (Equiv.swap (2 ^ (controls ++ [t]).length - 2) (2 ^ (controls ++ [t]).length - 1)
          (packBits n (controls ++ [t]) x)) x =
      flipIfAll n controls t x := by
  have ht : t < n := hq t (by simp)
  have hne := notMem_of_nodup_append hd
  have hbit := bitAt_lt n t x
  have hpos := Nat.two_pow_pos controls.length
  have hlen : 2 ^ (controls ++ [t]).length = 2 * 2 ^ controls.length := by
    rw [List.length_append, List.length_singleton, pow_succ, Nat.mul_comm]
  have hlow := packBits_lt n controls x
  have hlast : packBits n controls x = 2 ^ controls.length - 1 ↔ ∀ q ∈ controls, bitAt n q x = 1 :=
    packBits_eq_last_iff
  unfold flipIfAll
  by_cases hall : ∀ q ∈ controls, bitAt n q x = 1
  · -- The flipped index differs in the target only, so it is told by its packed bits.
    have hflip : packBits n (controls ++ [t]) (setBit n t (1 - bitAt n t x) x) =
        2 * packBits n controls x + (1 - bitAt n t x) := by
      rw [packBits_append_singleton, bitAt_setBit (by omega) ht ht, if_pos rfl]
      congr 2
      refine packBits_congr fun q hmem => ?_
      rw [bitAt_setBit (by omega) (hq q (by simp [hmem])) ht, if_neg]
      intro heq
      exact hne (heq ▸ hmem)
    have hswap : Equiv.swap (2 ^ (controls ++ [t]).length - 2)
        (2 ^ (controls ++ [t]).length - 1) (packBits n (controls ++ [t]) x) =
          packBits n (controls ++ [t]) (setBit n t (1 - bitAt n t x) x) := by
      rw [hflip, packBits_append_singleton, hlast.mpr hall, hlen, Equiv.swap_apply_def]
      split_ifs <;> omega
    rw [if_pos hall, hswap]
    refine (eq_replaceBits hd hq (setBit_lt (by omega) ht hx) hx fun q hqn hmem => ?_).symm
    rw [bitAt_setBit (by omega) hqn ht, if_neg]
    intro heq
    exact hmem (by simp [heq])
  · have hpack : packBits n controls x ≠ 2 ^ controls.length - 1 := fun h => hall (hlast.mp h)
    have hswap : Equiv.swap (2 ^ (controls ++ [t]).length - 2)
        (2 ^ (controls ++ [t]).length - 1) (packBits n (controls ++ [t]) x) =
          packBits n (controls ++ [t]) x := by
      rw [packBits_append_singleton, hlen]
      exact Equiv.swap_apply_of_ne_of_ne (by omega) (by omega)
    rw [if_neg hall, hswap, replaceBits_packBits hd hq hx]

/-- Lifted to listed qubits, the exchange flips the last one if all others are 1. -/
theorem actsOnBasis_lastExchange (hd : (controls ++ [t]).Nodup)
    (hq : ∀ q ∈ controls ++ [t], q < n) :
    (liftGate (lastExchange (controls ++ [t]).length) (controls ++ [t]) n).ActsOnBasis n
      (flipIfAll n controls t) fun _ => 1 := by
  have hpos : 0 < 2 ^ (controls ++ [t]).length := Nat.two_pow_pos _
  exact ((actsOnBasis_exchange (by omega) (by omega)).lift hd hq).congr
    (fun x hx => replaceBits_swap_last hd hq hx) fun _ _ => rfl

/-! ## Hadamard gates around a sign -/

theorem get_hadamardGate_mul (ht : t < n) {u : CMat ℝ} (hu : u.IsSquare (2 ^ n)) {r c : ℕ}
    (hr : r < 2 ^ n) (hc : c < 2 ^ n) :
    ((hadamardGate n t).mul u).get r c =
      real (1 / √2) * (u.get (setBit n t 0 r) c +
        (-1) ^ bitAt n t r * u.get (setBit n t 1 r) c) := by
  unfold hadamardGate
  rw [get_liftGate_mul (by simpa using ht) hu hr hc, spreadRow_hadamard]

theorem get_hadamardGate {r c : ℕ} (hr : r < 2 ^ n) (hc : c < 2 ^ n) :
    (hadamardGate n t).get r c =
      real (1 / √2) * ((if setBit n t 0 r = c then 1 else 0) +
        (-1) ^ bitAt n t r * if setBit n t 1 r = c then 1 else 0) := by
  unfold hadamardGate
  rw [get_liftGate hr hc, spreadRow_hadamard]

/-- Two Hadamard gates share out halves. -/
theorem two_mul_hadamard_share : 2 * (real (1 / √2) * real (1 / √2) : Cplx ℝ) = 1 := by
  rw [two_mul]
  exact Cplx.real_mul_self_add invRootTwo_mul_self_add

/-- A diagonal that does not read a qubit commutes with the Hadamard gate on it. -/
theorem hadamardGate_mul_diagonal (ht : t < n) {f : ℕ → Cplx ℝ}
    (hf : ∀ d < 2, ∀ x, f (setBit n t d x) = f x) :
    (hadamardGate n t).mul (Mat.diagonal (2 ^ n) f) =
      (Mat.diagonal (2 ^ n) f).mul (hadamardGate n t) := by
  have hH : (hadamardGate n t).IsSquare (2 ^ n) := isSquare_liftGate _ _ _
  have hD := Mat.isSquare_diagonal (2 ^ n) f
  refine (hH.mul hD).ext (hD.mul hH) fun r hr c hc => ?_
  have h0 := setBit_lt (n := n) (b := 0) (by omega) ht hr
  have h1 := setBit_lt (n := n) (b := 1) (by omega) ht hr
  rw [get_hadamardGate_mul ht hD hr hc, Mat.get_diagonal_mul hH hr hc, get_hadamardGate hr hc,
    Mat.get_diagonal f h0 hc, Mat.get_diagonal f h1 hc, hf 0 (by omega), hf 1 (by omega)]
  split_ifs <;> ring

/-- The sign of the state of ones, read with the target set. -/
theorem onesSign_setBit (ht : t < n) (hc : ∀ q ∈ controls, q < n) (hne : t ∉ controls) {d : ℕ}
    (hd : d < 2) (x : ℕ) :
    (∀ q ∈ controls ++ [t], bitAt n q (setBit n t d x) = 1) ↔
      (∀ q ∈ controls, bitAt n q x = 1) ∧ d = 1 := by
  rw [List.forall_mem_append, List.forall_mem_singleton, bitAt_setBit hd ht ht, if_pos rfl]
  have hsame : ∀ q ∈ controls, bitAt n q (setBit n t d x) = bitAt n q x := by
    intro q hmem
    rw [bitAt_setBit hd (hc q hmem) ht, if_neg]
    intro heq
    exact hne (heq ▸ hmem)
  constructor
  · rintro ⟨hall, hone⟩
    exact ⟨fun q hmem => (hsame q hmem).symm.trans (hall q hmem), hone⟩
  · rintro ⟨hall, hone⟩
    exact ⟨fun q hmem => (hsame q hmem).trans (hall q hmem), hone⟩

/-- A row of the sign between Hadamard gates reads the flipped index. -/
theorem get_hadamard_sign_hadamard (ht : t < n) (hcontrols : ∀ q ∈ controls, q < n)
    (hne : t ∉ controls) {r c : ℕ} (hr : r < 2 ^ n) (hc : c < 2 ^ n) :
    ((hadamardGate n t).mul
      ((onesPhase n (controls ++ [t]) Real.pi).mul (hadamardGate n t))).get r c =
        if flipIfAll n controls t r = c then 1 else 0 := by
  have hH : (hadamardGate n t).IsSquare (2 ^ n) := isSquare_liftGate _ _ _
  have hP : (onesPhase n (controls ++ [t]) Real.pi).IsSquare (2 ^ n) := Mat.isSquare_diagonal _ _
  have h0 := setBit_lt (n := n) (b := 0) (by omega) ht hr
  have h1 := setBit_lt (n := n) (b := 1) (by omega) ht hr
  have hshare := two_mul_hadamard_share
  have hsame := setBit_bitAt n t r
  rw [get_hadamardGate_mul ht (hP.mul hH) hr hc]
  unfold onesPhase
  rw [Mat.get_diagonal_mul hH h0 hc, Mat.get_diagonal_mul hH h1 hc, get_hadamardGate h0 hc,
    get_hadamardGate h1 hc]
  simp only [onesSign_setBit ht hcontrols hne (by omega : 0 < 2),
    onesSign_setBit ht hcontrols hne (by omega : 1 < 2), zero_ne_one, and_false, if_false,
    and_true, Cplx.cis_pi, bitAt_setBit (by omega : 0 < 2) ht ht,
    bitAt_setBit (by omega : 1 < 2) ht ht, if_true,
    setBit_setBit (by omega : 0 < 2) (by omega : 0 < 2),
    setBit_setBit (by omega : 0 < 2) (by omega : 1 < 2),
    setBit_setBit (by omega : 1 < 2) (by omega : 0 < 2),
    setBit_setBit (by omega : 1 < 2) (by omega : 1 < 2), pow_zero, pow_one]
  -- One of the two entries cancels, and the other one is counted twice.
  by_cases hall : ∀ q ∈ controls, bitAt n q r = 1
  · rw [flipIfAll, if_pos hall, if_pos hall]
    rcases bitAt_cases n t r with h | h
    · rw [h, pow_zero]
      linear_combination (if setBit n t 1 r = c then 1 else 0) * hshare
    · rw [h, pow_one]
      linear_combination (if setBit n t 0 r = c then 1 else 0) * hshare
  · rw [flipIfAll, if_neg hall, if_neg hall]
    rcases bitAt_cases n t r with h | h
    · rw [h] at hsame ⊢
      have hread : (if r = c then 1 else 0 : Cplx ℝ) = if setBit n t 0 r = c then 1 else 0 := by
        rw [hsame]
      rw [hread, pow_zero]
      linear_combination (if setBit n t 0 r = c then 1 else 0) * hshare
    · rw [h] at hsame ⊢
      have hread : (if r = c then 1 else 0 : Cplx ℝ) = if setBit n t 1 r = c then 1 else 0 := by
        rw [hsame]
      rw [hread, pow_one]
      linear_combination (if setBit n t 1 r = c then 1 else 0) * hshare

/-- Hadamard gates on the target around the sign of the state of ones are the exchange of the last
two states. -/
theorem hadamard_sign_hadamard (hd : (controls ++ [t]).Nodup)
    (hq : ∀ q ∈ controls ++ [t], q < n) :
    (hadamardGate n t).mul ((onesPhase n (controls ++ [t]) Real.pi).mul (hadamardGate n t)) =
      liftGate (lastExchange (controls ++ [t]).length) (controls ++ [t]) n := by
  have ht : t < n := hq t (by simp)
  have hcontrols : ∀ q ∈ controls, q < n := fun q hmem => hq q (by simp [hmem])
  have hne := notMem_of_nodup_append hd
  have hH : (hadamardGate n t).IsSquare (2 ^ n) := isSquare_liftGate _ _ _
  have hP : (onesPhase n (controls ++ [t]) Real.pi).IsSquare (2 ^ n) := Mat.isSquare_diagonal _ _
  have hact := actsOnBasis_lastExchange hd hq
  refine (hH.mul (hP.mul hH)).ext hact.1 fun r hr c hc => ?_
  rw [get_hadamard_sign_hadamard ht hcontrols hne hr hc, (hact.2 c hc).2 r hr]
  by_cases heq : r = flipIfAll n controls t c
  · rw [if_pos heq, heq, flipIfAll_flipIfAll ht hcontrols hne, if_pos rfl]
  · rw [if_neg heq, if_neg]
    intro hback
    rw [← hback, flipIfAll_flipIfAll ht hcontrols hne] at heq
    exact heq rfl

end

end QuantumGates
