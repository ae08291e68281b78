-- The parity network on the basis. Its gates are controlled flips and phases of one angle, taken
-- forward or back. A run of them follows a basis state and counts the phases that meet a 1 at
-- their moment. The count telescopes over the blocks to a power of two on the state in which all
-- listed bits are 1, and to nought on all others.
import QuantumGates.Proofs.Circuit.GrayCode
import QuantumGates.Proofs.Exact.Gates

namespace QuantumGates

open Finset

/-! ## Moves -/

/-- A gate of the network: a controlled flip, or the phase of the angle or of its opposite. -/
inductive NetworkMove
  | flip (control target : ℕ)
  | phase (qubit : ℕ) (forward : Bool)
deriving DecidableEq

namespace NetworkMove

/-- The gate of a move, the angle being given. -/
def gate {R : Type} [Scalar R] (angle : Param R) : NetworkMove → Operation (Param R)
  | flip control target => .cnot control target
  | phase qubit forward => .phaseShift qubit (if forward then angle else angle.neg)

/-- A basis state after a move, with the count of the phases that met a 1, those of the opposite
angle counted as negative. -/
def step (n : ℕ) : NetworkMove → ℕ × ℤ → ℕ × ℤ
  | flip control target, (x, count) => (flipIf n control target x, count)
  | phase qubit forward, (x, count) =>
    (x, count + (if forward then 1 else -1) * bitAt n qubit x)

/-- A basis state and the count after all moves. -/
def run (n : ℕ) : List NetworkMove → ℕ × ℤ → ℕ × ℤ
  | [], s => s
  | move :: moves, s => run n moves (move.step n s)

theorem run_append (n : ℕ) (as bs : List NetworkMove) (s : ℕ × ℤ) :
    run n (as ++ bs) s = run n bs (run n as s) := by
  induction as generalizing s with
  | nil => rfl
  | cons a as ih => exact ih _

/-- The count goes on from what it was. -/
theorem run_eq (n : ℕ) (moves : List NetworkMove) (x : ℕ) (count : ℤ) :
    run n moves (x, count) = ((run n moves (x, 0)).1, count + (run n moves (x, 0)).2) := by
  induction moves generalizing x count with
  | nil => simp [run]
  | cons move moves ih =>
    cases move with
    | flip control target => exact ih _ _
    | phase qubit forward =>
      unfold run step
      rw [ih, ih x (0 + _)]
      simp only [Prod.mk.injEq, true_and]
      ring

end NetworkMove

/-! ## The moves of the network -/

/-- The flip of the accumulator that `foldFlip` makes. -/
def foldMove (lower : List ℕ) (accumulator code : ℕ) : List NetworkMove :=
  if code = 0 then [] else [.flip (lower[highestBit code]?.getD 0) accumulator]

/-- The moves of one step of the Gray code. -/
def stepMoves (lower : List ℕ) (accumulator step : ℕ) : List NetworkMove :=
  foldMove lower accumulator (grayCode step ^^^ grayCode (step - 1)) ++
    [.phase accumulator (evenBits (grayCode step))]

/-- The moves of all subsets with a given highest qubit. -/
def blockMoves (lower : List ℕ) (accumulator : ℕ) : List NetworkMove :=
  (List.range (2 ^ lower.length)).flatMap (stepMoves lower accumulator) ++
    foldMove lower accumulator (grayCode (2 ^ lower.length - 1))

/-- The moves of the whole network. -/
def networkMoves (qubits : List ℕ) : List NetworkMove :=
  (List.range qubits.length).reverse.flatMap fun highest =>
    blockMoves (qubits.take highest) (qubits[highest]?.getD 0)

section

variable {R : Type} [Scalar R] (angle : Param R)

theorem map_foldMove (lower : List ℕ) (accumulator code : ℕ) :
    (foldMove lower accumulator code).map (NetworkMove.gate angle) =
      foldFlip lower accumulator code := by
  unfold foldMove foldFlip
  split <;> rfl

theorem map_stepMoves (lower : List ℕ) (accumulator step : ℕ) :
    (stepMoves lower accumulator step).map (NetworkMove.gate angle) =
      networkStep lower accumulator angle step := by
  unfold stepMoves networkStep
  rw [List.map_append, map_foldMove]
  rfl

theorem map_blockMoves (lower : List ℕ) (accumulator : ℕ) :
    (blockMoves lower accumulator).map (NetworkMove.gate angle) =
      networkBlock lower accumulator angle := by
  unfold blockMoves networkBlock
  rw [List.map_append, map_foldMove, List.map_flatMap]
  simp only [map_stepMoves, Nat.pow_eq]

/-- The network is made of its moves, the angle being a share of the whole one. -/
theorem parityNetwork_eq {qubits : List ℕ} (hne : qubits ≠ []) (theta : Param R) :
    parityNetwork qubits theta = do
      let angle ← theta.div (.literal (← powerOfTwo? (qubits.length - 1)))
      return (networkMoves qubits).map (NetworkMove.gate angle) := by
  have hlen : ¬ qubits.length < 1 := by
    have := List.length_pos_iff.mpr hne
    omega
  have hcircuit : ∀ angle : Param R, (networkMoves qubits).map (NetworkMove.gate angle) =
      (List.range qubits.length).reverse.flatMap fun highest =>
        networkBlock (qubits.take highest) (qubits[highest]?.getD 0) angle := by
    intro angle
    unfold networkMoves
    rw [List.map_flatMap]
    simp only [map_blockMoves]
  unfold parityNetwork requireQubits
  rw [if_neg hlen]
  simp only [hcircuit]
  rfl

/-- The network of a parameter whose share is an angle. -/
theorem parityNetwork_of_share {qubits : List ℕ} (hne : qubits ≠ []) {theta angle : Param R} {y : R}
    (hpower : powerOfTwo? (qubits.length - 1) = .ok y) (h : theta.div (.literal y) = .ok angle) :
    parityNetwork qubits theta = .ok ((networkMoves qubits).map (NetworkMove.gate angle)) := by
  rw [parityNetwork_eq hne, hpower]
  show (do let angle ← theta.div (.literal y)
           return (networkMoves qubits).map (NetworkMove.gate angle)) = _
  rw [h]
  rfl

end

/-! ## One block -/

/-- A bit as a sign: 1 for 0 and -1 for 1. -/
def signOf (b : ℕ) : ℤ := 1 - 2 * b

theorem signOf_mul_self {b : ℕ} (hb : b < 2) : signOf b * signOf b = 1 := by
  unfold signOf
  interval_cases b <;> rfl

theorem signOf_flip {b : ℕ} (hb : b < 2) : signOf (1 - b) = -signOf b := by
  unfold signOf
  interval_cases b <;> rfl

theorem bit_of_signOf {b c : ℕ} (h : signOf b = signOf c) : b = c := by
  unfold signOf at h
  omega

/-- The signs of the listed bits of a basis state. -/
def signsAt (n : ℕ) (qs : List ℕ) (x : ℕ) : List ℤ := qs.map fun q => signOf (bitAt n q x)

@[simp] theorem length_signsAt (n : ℕ) (qs : List ℕ) (x : ℕ) :
    (signsAt n qs x).length = qs.length := by
  unfold signsAt
  rw [List.length_map]

theorem signsAt_mul_self {n : ℕ} {qs : List ℕ} {x : ℕ} :
    ∀ s ∈ signsAt n qs x, s * s = 1 := by
  intro s hs
  obtain ⟨q, -, rfl⟩ := List.mem_map.mp hs
  exact signOf_mul_self (bitAt_lt n q x)

section

variable {n accumulator x : ℕ} {lower : List ℕ}

/-- The accumulator holds the parity of its own bit and the bits of a subset of the lower qubits,
and all other bits are as they were. -/
structure Folded (n : ℕ) (lower : List ℕ) (accumulator x code y : ℕ) : Prop where
  parity : signOf (bitAt n accumulator y) =
    signOf (bitAt n accumulator x) * foldedSign (signsAt n lower x) code
  others : y = setBit n accumulator (bitAt n accumulator y) x

theorem folded_start (n : ℕ) (lower : List ℕ) (accumulator x : ℕ) :
    Folded n lower accumulator x 0 x where
  parity := by rw [foldedSign_zero, mul_one]
  others := (setBit_bitAt n accumulator x).symm

/-- Back at the empty subset every bit is as it was. -/
theorem Folded.eq_start {y : ℕ} (h : Folded n lower accumulator x 0 y) : y = x := by
  have hbit : bitAt n accumulator y = bitAt n accumulator x := by
    apply bit_of_signOf
    rw [h.parity, foldedSign_zero, mul_one]
  rw [h.others, hbit, setBit_bitAt]

/-- A flip by a lower qubit adds it to the subset or takes it out. -/
theorem Folded.flip {code y t : ℕ} (h : Folded n lower accumulator x code y)
    (ha : accumulator < n) (hl : ∀ q ∈ lower, q < n) (hne : accumulator ∉ lower)
    (ht : t < lower.length) :
    Folded n lower accumulator x (code ^^^ 2 ^ t) (flipIf n lower[t] accumulator y) := by
  have hmem := List.getElem_mem ht
  have hdiff : lower[t] ≠ accumulator := fun heq => hne (heq ▸ hmem)
  have hb := bitAt_lt n accumulator y
  have hcontrol : bitAt n lower[t] y = bitAt n lower[t] x := by
    rw [h.others, bitAt_setBit hb (hl _ hmem) ha, if_neg hdiff]
  have ht' : t < (signsAt n lower x).length := by rwa [length_signsAt]
  have hsign : (signsAt n lower x)[t] = signOf (bitAt n lower[t] x) := by
    simp [signsAt]
  have hstep : foldedSign (signsAt n lower x) (code ^^^ 2 ^ t) =
      signOf (bitAt n lower[t] x) * foldedSign (signsAt n lower x) code := by
    rw [foldedSign_flip signsAt_mul_self ht', hsign]
  unfold flipIf
  rw [hcontrol]
  rcases bitAt_cases n lower[t] x with h0 | h1
  · rw [if_neg (by omega)]
    refine ⟨?_, h.others⟩
    rw [h.parity, hstep, h0]
    unfold signOf
    ring
  · rw [if_pos h1]
    have hbit : bitAt n accumulator (setBit n accumulator (1 - bitAt n accumulator y) y) =
        1 - bitAt n accumulator y := by
      rw [bitAt_setBit (by omega) ha ha, if_pos rfl]
    refine ⟨?_, ?_⟩
    · rw [hbit, signOf_flip hb, h.parity, hstep, h1]
      unfold signOf
      ring
    · rw [hbit]
      have hb' : 1 - bitAt n accumulator y < 2 := by omega
      generalize 1 - bitAt n accumulator y = b at hb' ⊢
      rw [h.others, setBit_setBit hb hb']

/-- The move for a single bit, or for none. -/
theorem Folded.run_foldMove {code change y : ℕ} (h : Folded n lower accumulator x code y)
    (ha : accumulator < n) (hl : ∀ q ∈ lower, q < n) (hne : accumulator ∉ lower)
    (hchange : change = 0 ∨ ∃ t < lower.length, change = 2 ^ t) (count : ℤ) :
    ∃ z, Folded n lower accumulator x (code ^^^ change) z ∧
      NetworkMove.run n (foldMove lower accumulator change) (y, count) = (z, count) := by
  unfold foldMove
  rcases hchange with rfl | ⟨t, ht, rfl⟩
  · exact ⟨y, by rwa [Nat.xor_zero], rfl⟩
  · refine ⟨_, h.flip ha hl hne ht, ?_⟩
    have hbit : highestBit (2 ^ t) = t := Nat.log2_two_pow
    rw [if_neg (Nat.two_pow_pos t).ne', hbit, List.getElem?_eq_getElem ht]
    rfl

/-- The sign with which a subset counts. -/
def sizeSign (code : ℕ) : ℤ := if evenBits code then 1 else -1

/-- What the subset of a code adds to twice the count. -/
def share (n : ℕ) (lower : List ℕ) (accumulator x code : ℕ) : ℤ :=
  sizeSign code - signOf (bitAt n accumulator x) *
    (sizeSign code * foldedSign (signsAt n lower x) code)

/-- The moves of one step lead from the subset before to that of the step, which is counted. -/
theorem Folded.run_stepMoves {m y : ℕ} (h : Folded n lower accumulator x (grayCode (m - 1)) y)
    (ha : accumulator < n) (hl : ∀ q ∈ lower, q < n) (hne : accumulator ∉ lower)
    (hm : m < 2 ^ lower.length) (count : ℤ) :
    ∃ z c, Folded n lower accumulator x (grayCode m) z ∧
      NetworkMove.run n (stepMoves lower accumulator m) (y, count) = (z, c) ∧
      2 * c = 2 * count + share n lower accumulator x (grayCode m) := by
  obtain ⟨z, hz, hrun⟩ := h.run_foldMove ha hl hne (grayCode_change hm) count
  have hcode : grayCode (m - 1) ^^^ (grayCode m ^^^ grayCode (m - 1)) = grayCode m := by
    rw [Nat.xor_comm, Nat.xor_assoc, Nat.xor_self, Nat.xor_zero]
  rw [hcode] at hz
  refine ⟨z, count + sizeSign (grayCode m) * bitAt n accumulator z, hz, ?_, ?_⟩
  · unfold stepMoves
    rw [NetworkMove.run_append, hrun]
    rfl
  · have hparity := hz.parity
    have hsign : (2 * bitAt n accumulator z : ℤ) = 1 - signOf (bitAt n accumulator z) := by
      unfold signOf
      ring
    rw [hparity] at hsign
    unfold share
    linear_combination sizeSign (grayCode m) * hsign

/-- After `k` steps the accumulator holds the last subset, and all `k` of them are counted. -/
theorem run_steps (ha : accumulator < n) (hl : ∀ q ∈ lower, q < n) (hne : accumulator ∉ lower)
    {k : ℕ} (hk : k ≤ 2 ^ lower.length) :
    ∃ z c, Folded n lower accumulator x (grayCode (k - 1)) z ∧
      NetworkMove.run n ((List.range k).flatMap (stepMoves lower accumulator)) (x, 0) = (z, c) ∧
      2 * c = ∑ m ∈ range k, share n lower accumulator x (grayCode m) := by
  induction k with
  | zero => exact ⟨x, 0, folded_start n lower accumulator x, rfl, rfl⟩
  | succ k ih =>
    obtain ⟨y, count, hy, hrun, hcount⟩ := ih (by omega)
    obtain ⟨z, c, hz, hstep, hc⟩ := hy.run_stepMoves ha hl hne (by omega) count
    refine ⟨z, c, hz, ?_, ?_⟩
    · rw [List.range_succ, List.flatMap_append, List.flatMap_singleton, NetworkMove.run_append,
        hrun, hstep]
    · rw [hc, hcount, sum_range_succ]

/-- The product of one minus the signs of the listed bits. -/
def doubledBits (n : ℕ) (qs : List ℕ) (x : ℕ) : ℤ :=
  (((signsAt n qs x).map fun s => -s).map fun s => 1 + s).prod

theorem sum_sizeSign (h : ℕ) : ∑ c ∈ range (2 ^ h), sizeSign c = if h = 0 then 1 else 0 := by
  have hone : ∀ (h c : ℕ), foldedSign (List.replicate h 1) c = 1 := by
    intro h
    induction h with
    | zero => exact fun c => rfl
    | succ h ih =>
      intro c
      rw [List.replicate_succ, foldedSign, ih, ite_self, one_mul]
  have hsum := sum_foldedSign ((List.replicate h (1 : ℤ)).map fun s => -s)
  have hprod : (((List.replicate h (1 : ℤ)).map fun s => -s).map fun s => 1 + s).prod = 0 ^ h := by
    rw [List.map_map, List.map_replicate, List.prod_replicate]
    rfl
  rw [List.length_map, List.length_replicate, hprod, zero_pow_eq] at hsum
  rw [← hsum]
  refine sum_congr rfl fun c hc => ?_
  rw [foldedSign_neg (by simpa using hc), hone, mul_one]
  rfl

/-- What all subsets of the lower qubits add to twice the count. -/
theorem sum_share : ∑ m ∈ range (2 ^ lower.length), share n lower accumulator x (grayCode m) =
    (if lower.length = 0 then 1 else 0) -
      signOf (bitAt n accumulator x) * doubledBits n lower x := by
  rw [sum_grayCode]
  unfold share
  rw [sum_sub_distrib, sum_sizeSign, ← mul_sum]
  congr 2
  have hsum := sum_foldedSign ((signsAt n lower x).map fun s => -s)
  rw [List.length_map, length_signsAt] at hsum
  unfold doubledBits
  rw [← hsum]
  refine sum_congr rfl fun c hc => ?_
  rw [foldedSign_neg (by simpa using hc)]
  rfl

/-- A block restores the basis state. -/
theorem run_blockMoves (ha : accumulator < n) (hl : ∀ q ∈ lower, q < n)
    (hne : accumulator ∉ lower) :
    ∃ c, NetworkMove.run n (blockMoves lower accumulator) (x, 0) = (x, c) ∧
      2 * c = (if lower.length = 0 then 1 else 0) -
        signOf (bitAt n accumulator x) * doubledBits n lower x := by
  obtain ⟨y, c, hy, hrun, hc⟩ := run_steps (x := x) ha hl hne le_rfl
  obtain ⟨z, hz, hback⟩ := hy.run_foldMove ha hl hne (grayCode_close lower.length) c
  rw [Nat.xor_self] at hz
  refine ⟨c, ?_, ?_⟩
  · unfold blockMoves
    rw [NetworkMove.run_append, hrun, hback, hz.eq_start]
  · rw [hc, sum_share]

end

/-! ## The whole network -/

theorem doubledBits_append_singleton (n : ℕ) (qs : List ℕ) (q x : ℕ) :
    doubledBits n (qs ++ [q]) x =
      doubledBits n qs x - signOf (bitAt n q x) * doubledBits n qs x := by
  unfold doubledBits signsAt
  simp only [List.map_append, List.prod_append, List.map_cons, List.map_nil, List.prod_cons,
    List.prod_nil]
  ring

/-- The product is not nought on the state of ones only. -/
theorem doubledBits_eq (n : ℕ) (qs : List ℕ) (x : ℕ) :
    doubledBits n qs x = if ∀ q ∈ qs, bitAt n q x = 1 then 2 ^ qs.length else 0 := by
  induction qs with
  | nil => simp [doubledBits, signsAt]
  | cons q qs ih =>
    have hcons : doubledBits n (q :: qs) x =
        (1 - signOf (bitAt n q x)) * doubledBits n qs x := by
      unfold doubledBits signsAt
      rw [List.map_cons, List.map_cons, List.map_cons, List.prod_cons, sub_eq_add_neg]
    rw [hcons, ih]
    rcases bitAt_cases n q x with h0 | h1
    · rw [if_neg (c := ∀ p ∈ q :: qs, _), h0]
      · exact zero_mul _
      · intro hall
        have := hall q (by simp)
        omega
    · by_cases hall : ∀ p ∈ qs, bitAt n p x = 1
      · rw [if_pos hall, if_pos (by simpa [h1] using hall), h1, List.length_cons, pow_succ']
        rfl
      · rw [if_neg hall, if_neg, mul_zero]
        exact fun h => hall fun p hp => h p (by simp [hp])

/-- A listed qubit is none of those before it. -/
theorem getElem_notMem_take {qs : List ℕ} (hd : qs.Nodup) {k : ℕ} (hk : k < qs.length) :
    qs[k] ∉ qs.take k := by
  intro hmem
  obtain ⟨i, hi, heq⟩ := List.getElem_of_mem hmem
  rw [List.getElem_take] at heq
  rw [List.length_take] at hi
  have := hd.getElem_inj_iff.mp heq
  omega

/-- The blocks below `k` restore the basis state, and their counts telescope. -/
theorem run_blocks {n x : ℕ} {qs : List ℕ} (hd : qs.Nodup) (hq : ∀ q ∈ qs, q < n) {k : ℕ}
    (hk : k ≤ qs.length) :
    ∃ c, NetworkMove.run n ((List.range k).reverse.flatMap fun highest =>
        blockMoves (qs.take highest) (qs[highest]?.getD 0)) (x, 0) = (x, c) ∧
      2 * c = doubledBits n (qs.take k) x - if k = 0 then 1 else 0 := by
  induction k with
  | zero => exact ⟨0, rfl, rfl⟩
  | succ k ih =>
    have hk' : k < qs.length := by omega
    obtain ⟨c, hrun, hc⟩ := ih (by omega)
    obtain ⟨d, hblock, hd'⟩ := run_blockMoves (x := x) (hq _ (List.getElem_mem hk'))
      (fun q hmem => hq q (List.mem_of_mem_take hmem)) (getElem_notMem_take hd hk')
    refine ⟨d + c, ?_, ?_⟩
    · rw [List.range_succ, List.reverse_append, List.reverse_singleton, List.singleton_append,
        List.flatMap_cons, NetworkMove.run_append, List.getElem?_eq_getElem hk', Option.getD_some,
        hblock, NetworkMove.run_eq, hrun]
    · have hlen : (qs.take k).length = k := by
        rw [List.length_take]
        omega
      rw [hlen] at hd'
      rw [← List.take_concat_get' qs k hk', doubledBits_append_singleton, if_neg (by omega)]
      linear_combination hd' + hc

/-- The network restores every basis state, and the count is a power of two on the states of
ones only. -/
theorem run_networkMoves {n : ℕ} {qs : List ℕ} (hne : qs ≠ []) (hd : qs.Nodup)
    (hq : ∀ q ∈ qs, q < n) (x : ℕ) :
    NetworkMove.run n (networkMoves qs) (x, 0) =
      (x, if ∀ q ∈ qs, bitAt n q x = 1 then 2 ^ (qs.length - 1) else 0) := by
  have hlen := List.length_pos_iff.mpr hne
  obtain ⟨c, hrun, hc⟩ := run_blocks (x := x) hd hq le_rfl
  unfold networkMoves
  rw [hrun]
  rw [if_neg hlen.ne', sub_zero, List.take_length, doubledBits_eq] at hc
  have hpow : (2 : ℤ) ^ qs.length = 2 * 2 ^ (qs.length - 1) := by
    rw [← pow_succ', Nat.sub_add_cancel hlen]
  congr 1
  split at hc
  · rw [if_pos (by assumption)]
    linarith
  · rw [if_neg (by assumption)]
    linarith

end QuantumGates
