-- The circuit of the Fourier transform on any distinct qubits of a register. The ladder is an
-- induction on its first qubit: the Hadamard gate and the phases of this qubit, before the
-- ladder of the others, make the matrix of one more qubit. The exchanges reverse the order of
-- the qubits, which puts the rows of the matrix in their own order.
import Mathlib.Data.List.Induction
import QuantumGates.Proofs.Circuit.ParityPhase
import QuantumGates.Proofs.Exact.Fourier

namespace QuantumGates

open Finset CMat

/-! ## Phases from later qubits -/

section

variable (evaluate : String → Except (Fault ℝ) ℝ) (tolerance : ℝ) {n : ℕ}

theorem actsOnBasis_controlledPhaseGate {p q : ℕ} (x : ℝ) (hp : p < n) (hq : q < n)
    (hpq : p ≠ q) :
    (controlledPhaseGate n p q x).ActsOnBasis n (fun c => c)
      fun c => .cis (x * (bitAt n p c * bitAt n q c)) :=
  actsOnBasis_of_weights fun f _ hr => spreadRow_controlledPhase f hp hq hpq hr

/-- The phases of a qubit read the later qubits as the digits of a binary fraction. -/
theorem unitary_phasesTo {q : ℕ} (hq : q < n) {rest : List ℕ} (hrest : ∀ p ∈ rest, p < n)
    (hne : q ∉ rest) (k : ℕ) :
    ∃ c u, phasesTo (1 : ℝ) q (k + 1) rest = .ok c ∧
      c.unitary (Param.value evaluate) tolerance n = .ok u ∧
      u.ActsOnBasis n (fun s => s) fun s =>
        .cis (Real.pi * bitAt n q s * packBits n rest s / 2 ^ (k + rest.length)) := by
  induction rest generalizing k with
  | nil =>
    refine ⟨[], _, rfl, Circuit.unitary_nil _ _ n, ?_⟩
    have hone : (fun s => Cplx.cis (Real.pi * bitAt n q s * packBits n [] s / 2 ^ (k + 0))) =
        fun _ => 1 := by
      funext s
      rw [packBits_nil, Nat.cast_zero, mul_zero, zero_div, Cplx.cis_zero]
    rw [List.length_nil, hone]
    exact Mat.actsOnBasis_identity n
  | cons p rest ih =>
    have hp : p < n := hrest p (by simp)
    have hpq : p ≠ q := fun heq => hne (by simp [heq])
    obtain ⟨c, u, hc, hu, hact⟩ := ih (fun s hs => hrest s (by simp [hs]))
      (fun hmem => hne (by simp [hmem])) (k + 1)
    have hgate := onRegister_controlledPhase (Param.value evaluate) tolerance
      (.literal (1 * (Real.pi / 2 ^ (k + 1)))) rfl hp hq hpq
    refine ⟨_, _, ?_, Circuit.unitary_cons _ _ hgate hu, ?_⟩
    · unfold phasesTo
      rw [powerOfTwo?_eq, hc]
      rfl
    · have hweight : (fun s => Cplx.cis (Real.pi * bitAt n q s * packBits n (p :: rest) s /
          2 ^ (k + (p :: rest).length))) = fun s =>
          Cplx.cis (Real.pi * bitAt n q s * packBits n rest s / 2 ^ (k + 1 + rest.length)) *
            Cplx.cis (1 * (Real.pi / 2 ^ (k + 1)) * (bitAt n p s * bitAt n q s)) := by
        funext s
        rw [← Cplx.cis_add, packBits_cons, List.length_cons]
        congr 1
        push_cast
        rw [pow_add, pow_add, pow_add, pow_add]
        field_simp
        ring
      rw [hweight]
      exact hact.mul (actsOnBasis_controlledPhaseGate _ hp hq hpq)

/-! ## The ladder -/

/-- Replacing one more bit sets it and replaces the others. -/
theorem replaceBits_add {q d l r : ℕ} {rest : List ℕ} (hq : q < n) (hrest : ∀ p ∈ rest, p < n)
    (hne : q ∉ rest) (hd : rest.Nodup) (hb : d < 2) (hl : l < 2 ^ rest.length)
    (hr : r < 2 ^ n) :
    replaceBits n (q :: rest) (2 ^ rest.length * d + l) r =
      setBit n q d (replaceBits n rest l r) := by
  have hset := setBit_lt hb hq hr
  have hlt := replaceBits_lt (j := l) hrest hr
  rw [replaceBits_cons, bitAt_zero_add hb hl]
  refine eq_of_listed_bits rest (replaceBits_lt hrest hset) (setBit_lt hb hq hlt)
    (fun i hi => ?_) fun s hs hmem => ?_
  · have hdiff : rest[i] ≠ q := fun heq => hne (heq ▸ List.getElem_mem hi)
    have hlow : bitAt rest.length i (2 ^ rest.length * d + l) = bitAt rest.length i l := by
      obtain ⟨k, hk⟩ : ∃ k, rest.length = i + 1 + k := ⟨rest.length - (i + 1), by omega⟩
      rw [bitAt_eq_testBit, bitAt_eq_testBit, Nat.testBit_two_pow_mul_add _ hl, if_pos (by omega)]
    rw [bitAt_replaceBits hd hrest hi, bitAt_setBit hb (hrest _ (List.getElem_mem hi)) hq,
      if_neg hdiff, bitAt_replaceBits hd hrest hi, hlow]
  · rw [bitAt_replaceBits_of_notMem hrest hs hmem, bitAt_setBit hb hs hq, bitAt_setBit hb hs hq,
      bitAt_replaceBits_of_notMem hrest hs hmem]

/-- The Hadamard gate and the phases of a new first qubit, before the Fourier matrix of the
others, are the Fourier matrix of all. -/
theorem fourierTable_succ {q : ℕ} {rest : List ℕ} (hq : q < n) (hrest : ∀ p ∈ rest, p < n)
    (hne : q ∉ rest) (hd : rest.Nodup) :
    (liftGate (fourierTable rest.length false) rest n).mul
      ((Mat.diagonal (2 ^ n) fun s =>
        .cis (Real.pi * bitAt n q s * packBits n rest s / 2 ^ rest.length)).mul
          (hadamardGate n q)) =
      liftGate (fourierTable (q :: rest).length false) (q :: rest) n := by
  have hH : (hadamardGate n q).IsSquare (2 ^ n) := isSquare_liftGate _ _ _
  have hP := Mat.isSquare_diagonal (2 ^ n) fun s =>
    Cplx.cis (Real.pi * bitAt n q s * packBits n rest s / 2 ^ rest.length)
  refine ((isSquare_liftGate _ rest n).mul (hP.mul hH)).ext (isSquare_liftGate _ _ n)
    fun r hr c hc => ?_
  have hb := bitAt_lt n q r
  have hm := packBits_lt n rest r
  have hpow : 2 ^ (q :: rest).length = 2 ^ rest.length + 2 ^ rest.length := by
    rw [List.length_cons, pow_succ]
    omega
  -- Each index of the larger sum is an index of the smaller one with a bit for the new qubit.
  have hentry : ∀ d < 2, ∀ l < 2 ^ rest.length,
      (fourierTable (q :: rest).length false).get (packBits n (q :: rest) r)
        (2 ^ rest.length * d + l) =
        (fourierTable rest.length false).get (packBits n rest r) l *
          (Cplx.cis (Real.pi * bitAt n q r * l / 2 ^ rest.length) *
            (real (1 / √2) * (-1) ^ (bitAt n q r * d))) := by
    intro d hd' l hl
    have hlt : 2 ^ rest.length * d + l < 2 ^ (q :: rest).length := by
      rw [hpow]
      interval_cases d <;> omega
    rw [get_fourierTable _ (packBits_lt n _ r) hlt, get_fourierTable _ hm hl,
      if_neg (by simp), if_neg (by simp), packBits_cons, List.length_cons,
      reversedBits_succ hb hm, fourierEntry_succ hb hd']
  rw [get_liftGate_mul hrest (hP.mul hH) hr hc, get_liftGate hr hc]
  unfold spreadRow
  rw [hpow, sum_range_add, ← sum_add_distrib]
  refine sum_congr rfl fun l hl => ?_
  have hl' := mem_range.mp hl
  have hs := replaceBits_lt (j := l) hrest hr
  have hbit : bitAt n q (replaceBits n rest l r) = bitAt n q r :=
    bitAt_replaceBits_of_notMem hrest hq hne
  have h0 := hentry 0 (by omega) l hl'
  have h1 := hentry 1 (by omega) l hl'
  have hr0 := replaceBits_add hq hrest hne hd (by omega : 0 < 2) hl' hr
  have hr1 := replaceBits_add hq hrest hne hd (by omega : 1 < 2) hl' hr
  rw [Nat.mul_zero, Nat.zero_add] at h0 hr0
  rw [Nat.mul_one] at h1 hr1
  rw [h0, h1, hr0, hr1]
  beta_reduce
  rw [Mat.get_diagonal_mul hH hs hc, hbit, packBits_replaceBits hd hrest hl']
  unfold hadamardGate
  rw [get_liftGate hs hc, spreadRow_hadamard, hbit, Nat.mul_zero, pow_zero,
    Nat.mul_one]
  ring

/-- The ladder is the Fourier matrix with its rows in reversed order. -/
theorem unitary_fourierLadder {qs : List ℕ} (hd : qs.Nodup) (hq : ∀ q ∈ qs, q < n) :
    ∃ c, fourierLadder (1 : ℝ) qs = .ok c ∧
      c.unitary (Param.value evaluate) tolerance n =
        .ok (liftGate (fourierTable qs.length false) qs n) := by
  induction qs with
  | nil =>
    refine ⟨[], rfl, ?_⟩
    have hone : fourierTable 0 false = Mat.identity (2 ^ 0) := by
      refine (isSquare_fourierTable 0 false).ext (Mat.isSquare_identity _) fun r hr c hc => ?_
      have hr0 : r = 0 := by simpa using hr
      have hc0 : c = 0 := by simpa using hc
      subst hr0 hc0
      rw [get_fourierTable _ hr hc, Mat.get_identity hr hc, if_pos rfl, Nat.mul_zero]
      unfold fourierEntry
      simp [real, Cplx.ofReal]
      rfl
    have hlift := liftGate_identity (K := Cplx ℝ) hd hq
    rw [List.length_nil, ← hone] at hlift
    rw [Circuit.unitary_nil, List.length_nil, hlift]
  | cons q rest ih =>
    rw [List.nodup_cons] at hd
    have hq0 : q < n := hq q (by simp)
    have hrest : ∀ p ∈ rest, p < n := fun p hp => hq p (by simp [hp])
    obtain ⟨c, hc, hu⟩ := ih hd.2 hrest
    obtain ⟨d, v, hd', hv, hact⟩ := unitary_phasesTo evaluate tolerance hq0 hrest hd.1 0
    refine ⟨.hadamard q :: d ++ c, ?_, ?_⟩
    · unfold fourierLadder
      rw [hd', hc]
      rfl
    · have hdiag := hact.eq_diagonal (fun _ _ => rfl) (fun _ _ => rfl)
      rw [Nat.zero_add] at hdiag
      rw [← fourierTable_succ hq0 hrest hd.1 hd.2, ← hdiag]
      exact Circuit.unitary_append _ _
        (Circuit.unitary_cons _ _ (onRegister_hadamard _ _ hq0) hv) hu

end

/-! ## The exchanges -/

/-- The exchange of the outer two qubits comes first. -/
theorem reversal_cons_append {R : Type} (a b : ℕ) (mid : List ℕ) :
    (reversal (a :: (mid ++ [b])) : Circuit R) = .swap a b :: reversal mid := by
  have hhalf : (a :: (mid ++ [b])).length / 2 = mid.length / 2 + 1 := by
    rw [List.length_cons, List.length_append, List.length_singleton]
    omega
  have hzip : (a :: (mid ++ [b])).zip (a :: (mid ++ [b])).reverse =
      (a, b) :: (mid.zip mid.reverse ++ [(b, a)]) := by
    rw [List.reverse_cons, List.reverse_append, List.reverse_singleton, List.singleton_append,
      List.cons_append, List.zip_cons_cons, List.zip_append (by rw [List.length_reverse])]
    rfl
  unfold reversal
  rw [hhalf, hzip, List.take_succ_cons, List.map_cons, List.take_append_of_le_length]
  rw [List.length_zip, List.length_reverse, min_self]
  omega

theorem nodup_outer {a b : ℕ} {mid : List ℕ} (hd : (a :: (mid ++ [b])).Nodup) :
    a ≠ b ∧ a ∉ mid ∧ b ∉ mid ∧ mid.Nodup := by
  rw [List.nodup_cons, List.mem_append, List.mem_singleton, not_or, List.nodup_append] at hd
  obtain ⟨⟨ham, hab⟩, hdm, -, hdisj⟩ := hd
  exact ⟨hab, ham, fun hbm => hdisj b hbm b (by simp) rfl, hdm⟩

/-- An exchange of the outer two bits, after the inner ones were reversed, reverses all. -/
theorem exchangeBits_reversed {n a b r : ℕ} {mid : List ℕ} (hd : (a :: (mid ++ [b])).Nodup)
    (hq : ∀ q ∈ a :: (mid ++ [b]), q < n) (hr : r < 2 ^ n) :
    exchangeBits n a b (replaceBits n mid (packBits n mid.reverse r) r) =
      replaceBits n (a :: (mid ++ [b])) (packBits n (a :: (mid ++ [b])).reverse r) r := by
  have ha : a < n := hq a (by simp)
  have hb : b < n := hq b (by simp)
  have hmid : ∀ p ∈ mid, p < n := fun p hp => hq p (by simp [hp])
  obtain ⟨hab, ham, hbm, hdm⟩ := nodup_outer hd
  have hlt := packBits_lt n mid.reverse r
  rw [List.length_reverse] at hlt
  have hy := replaceBits_lt (j := packBits n mid.reverse r) hmid hr
  have hz := exchangeBits_lt ha hb hy
  have hym := packBits_replaceBits (r := r) hdm hmid hlt
  have hyo : ∀ q < n, q ∉ mid → bitAt n q (replaceBits n mid (packBits n mid.reverse r) r) =
      bitAt n q r := fun q hqn hqm => bitAt_replaceBits_of_notMem hmid hqn hqm
  generalize replaceBits n mid (packBits n mid.reverse r) r = y at *
  have hza : bitAt n a (exchangeBits n a b y) = bitAt n b r := by
    rw [bitAt_exchangeBits ha hb ha, if_neg hab, if_pos rfl, hyo b hb hbm]
  have hzb : bitAt n b (exchangeBits n a b y) = bitAt n a r := by
    rw [bitAt_exchangeBits ha hb hb, if_pos rfl, hyo a ha ham]
  have hzm : packBits n mid (exchangeBits n a b y) = packBits n mid.reverse r := by
    rw [← hym]
    refine packBits_congr fun p hp => ?_
    have hpa : p ≠ a := fun h => ham (h ▸ hp)
    have hpb : p ≠ b := fun h => hbm (h ▸ hp)
    rw [bitAt_exchangeBits ha hb (hmid p hp), if_neg hpb, if_neg hpa]
  have hpack : packBits n (a :: (mid ++ [b])) (exchangeBits n a b y) =
      packBits n (a :: (mid ++ [b])).reverse r := by
    rw [List.reverse_cons, List.reverse_append, List.reverse_singleton, List.singleton_append,
      List.cons_append, packBits_cons, packBits_cons, packBits_append_singleton,
      packBits_append_singleton, hza, hzb, hzm, List.length_append, List.length_append,
      List.length_reverse]
    rfl
  rw [← hpack]
  refine eq_replaceBits hd hq hz hr fun q hqn hmem => ?_
  rw [List.mem_cons, List.mem_append, List.mem_singleton, not_or, not_or] at hmem
  rw [bitAt_exchangeBits ha hb hqn, if_neg hmem.2.2, if_neg hmem.1, hyo q hqn hmem.2.1]

/-- After the exchanges each row is read at the index with the listed bits in reversed order. -/
theorem unitaryFrom_reversal {R : Type} [Scalar R] [BinaryScalar R]
    (value : Param R → Except (Fault R) R) (tolerance : R) {n : ℕ} {qs : List ℕ} (hd : qs.Nodup)
    (hq : ∀ q ∈ qs, q < n) {u : CMat R} {σ : ℕ → ℕ} (hu : u.Reads (2 ^ n) σ) :
    ∃ v, Circuit.unitaryFrom value tolerance n u (reversal qs) = .ok v ∧
      v.Reads (2 ^ n) fun r => σ (replaceBits n qs (packBits n qs.reverse r) r) := by
  induction qs using List.bidirectionalRec generalizing u σ with
  | nil => exact ⟨u, rfl, hu⟩
  | singleton a =>
    have hnone : (reversal [a] : Circuit R) = [] := by simp [reversal]
    rw [hnone]
    refine ⟨u, rfl, hu.congr fun r hr => ?_⟩
    rw [List.reverse_singleton, replaceBits_packBits hd hq hr]
  | cons_append a mid b ih =>
    have ha : a < n := hq a (by simp)
    have hb : b < n := hq b (by simp)
    have hmid : ∀ p ∈ mid, p < n := fun p hp => hq p (by simp [hp])
    obtain ⟨hab, -, -, hdm⟩ := nodup_outer hd
    obtain ⟨v, hv, hreads⟩ := ih hdm hmid ((reads_swapGate ha hb).mul hu)
    refine ⟨v, ?_, hreads.congr fun r hr => ?_⟩
    · rw [reversal_cons_append, Circuit.unitaryFrom, onRegister_swap value tolerance ha hb hab]
      exact hv
    · rw [exchangeBits_reversed hd hq hr]

/-- The exchanges read each row at the index with the listed bits in reversed order. -/
theorem unitary_reversal {R : Type} [Scalar R] [BinaryScalar R]
    (value : Param R → Except (Fault R) R) (tolerance : R) {n : ℕ} {qs : List ℕ} (hd : qs.Nodup)
    (hq : ∀ q ∈ qs, q < n) :
    ∃ v, Circuit.unitary value tolerance (reversal qs) n = .ok v ∧
      v.Reads (2 ^ n) fun r => replaceBits n qs (packBits n qs.reverse r) r :=
  unitaryFrom_reversal value tolerance hd hq (Mat.reads_identity (2 ^ n))

/-! ## The circuit -/

section

variable (evaluate : String → Except (Fault ℝ) ℝ) (tolerance : ℝ) {n : ℕ}

/-- The exchanges put the rows of the lifted matrix in their own order. -/
theorem reversal_mul_fourierTable {qs : List ℕ} (hd : qs.Nodup) (hq : ∀ q ∈ qs, q < n)
    {v : CMat ℝ} (hv : v.Reads (2 ^ n) fun r => replaceBits n qs (packBits n qs.reverse r) r) :
    v.mul (liftGate (fourierTable qs.length false) qs n) =
      liftGate (fourierTable qs.length true) qs n := by
  have hL := isSquare_liftGate (fourierTable qs.length false) qs n
  refine (hv.isSquare.mul hL).ext (isSquare_liftGate _ qs n) fun r hr c hc => ?_
  have hpack := packBits_lt n qs.reverse r
  rw [List.length_reverse] at hpack
  rw [hv.get_mul hL hr hc, get_liftGate (replaceBits_lt hq hr) hc, get_liftGate hr hc]
  unfold spreadRow
  refine Finset.sum_congr rfl fun j hj => ?_
  have hj' := mem_range.mp hj
  rw [packBits_replaceBits hd hq hpack, replaceBits_replaceBits hd hq hr,
    get_fourierTable _ hpack hj', get_fourierTable _ (packBits_lt n qs r) hj',
    if_neg (by simp), if_pos rfl, reversedBits_packBits_reverse]

theorem unitary_fourierCircuit {qs : List ℕ} (hd : qs.Nodup) (hq : ∀ q ∈ qs, q < n)
    (swaps : Bool) :
    ∃ c, fourierCircuit (R := ℝ) qs swaps false = .ok c ∧
      c.unitary (Param.value evaluate) tolerance n =
        .ok (liftGate (fourierTable qs.length swaps) qs n) := by
  obtain ⟨c, hc, hu⟩ := unitary_fourierLadder evaluate tolerance hd hq
  have hforward : (if false = true then -1 else 1 : ℝ) = 1 := rfl
  unfold fourierCircuit
  simp only [hforward, hc]
  cases swaps with
  | false =>
    refine ⟨c, ?_, hu⟩
    show Except.ok (c ++ []) = _
    rw [List.append_nil]
  | true =>
    obtain ⟨v, hv, hreads⟩ := unitary_reversal (Param.value evaluate) tolerance hd hq
    refine ⟨c ++ reversal qs, rfl, ?_⟩
    rw [Circuit.unitary_append _ _ hu hv, reversal_mul_fourierTable hd hq hreads]

/-- A gate lifted to all qubits of a register in their order is the gate. -/
theorem liftGate_range {m : CMat ℝ} (hm : m.IsSquare (2 ^ n)) :
    liftGate m (List.range n) n = m := by
  refine (isSquare_liftGate m _ n).ext hm fun r hr c hc => ?_
  rw [get_liftGate hr hc]
  unfold spreadRow
  rw [List.length_range, sum_eq_single c]
  · rw [packBits_range hr, replaceBits_range hc hr]
    beta_reduce
    rw [if_pos rfl, mul_one]
  · intro j hj hne
    rw [replaceBits_range (mem_range.mp hj) hr]
    beta_reduce
    rw [if_neg hne, mul_zero]
  · intro hmem
    exact absurd (mem_range.mpr hc) hmem

/-- A matrix on all qubits of the register, in their order, stays as it is. -/
theorem liftGate_of_eq_range {m : CMat ℝ} {qubits : List ℕ}
    (hm : m.IsSquare (2 ^ qubits.length)) (hrange : qubits = List.range n) :
    liftGate m qubits n = m := by
  subst hrange
  rw [List.length_range] at hm
  exact liftGate_range hm

end

/-- The Fourier gate on distinct qubits of a register, with or without exchanges, is its circuit:
both have the Fourier matrix lifted to these qubits, its rows in bit-reversed order without
exchanges. -/
theorem fourier_circuit_eq_gate {qubits : List ℕ} {n : ℕ} (hd : qubits.Nodup)
    (hq : ∀ q ∈ qubits, q < n) (swaps : Bool) (evaluate : String → Except (Fault ℝ) ℝ)
    (tolerance : ℝ) :
    let gate : Operation (Param ℝ) := ⟨.register .qft, qubits, swaps, false, ()⟩
    let size := qubits.length
    ∃ c u v, gate.circuit? = some (.ok c) ∧
      gate.matrix? (Param.value evaluate) tolerance = some (.ok u) ∧
      u.IsSquare (2 ^ size) ∧
      (∀ j < 2 ^ size, ∀ k < 2 ^ size, (u.get j k).toComplex =
        Complex.exp (2 * Real.pi * Complex.I *
          ((if swaps then j else reversedBits size j) * k : ℕ) / 2 ^ size) /
            (√(2 ^ size) : ℝ)) ∧
      c.unitary (Param.value evaluate) tolerance n = .ok v ∧
      gate.onRegister (Param.value evaluate) tolerance n = .ok v ∧
      (embed u qubits n : Except (Fault ℝ) (CMat ℝ)) = .ok v ∧
      (qubits = List.range n → v = u) := by
  intro gate size
  obtain ⟨c, hc, hu⟩ := unitary_fourierCircuit evaluate tolerance hd hq swaps
  have hmatrix : gate.matrix? (Param.value evaluate) tolerance =
      some (.ok (fourierTable size swaps)) := by
    show some (do
      let m ← fourierMatrix size swaps
      return if false = true then m.transposeWith Cplx.conj else m) = _
    rw [fourierMatrix_eq]
    rfl
  have hsq := isSquare_fourierTable size swaps
  have hqubits : gate.qubits = qubits := List.append_nil qubits
  have hgate := Operation.onRegister_eq_ok (n := n) _ _ gate hmatrix (by rwa [hqubits])
    (by rwa [hqubits]) (by rwa [hqubits])
  rw [hqubits] at hgate
  refine ⟨c, fourierTable size swaps, _, congrArg some hc, hmatrix, hsq, ?_, hu, hgate,
    embed_eq_ok hsq hd hq, ?_⟩
  · intro j hj k hk
    rw [get_fourierTable swaps hj hk, toComplex_fourierEntry]
  · exact liftGate_of_eq_range hsq

/-- Three qubits of a register of four, listed out of order. -/
theorem fourier_circuit_on_three :
    ∃ c v, Operation.circuit? (R := ℝ) ⟨.register .qft, [2, 0, 3], true, false, ()⟩ =
        some (.ok c) ∧
      c.unitary (Param.value fun _ => .error .undefined) 0 4 = .ok v ∧
      Operation.onRegister (Param.value fun _ => .error .undefined) (0 : ℝ)
        ⟨.register .qft, [2, 0, 3], true, false, ()⟩ 4 = .ok v := by
  obtain ⟨c, -, v, hc, -, -, -, hv, hgate, -⟩ :=
    fourier_circuit_eq_gate (by decide : [2, 0, 3].Nodup) (by decide : ∀ q ∈ [2, 0, 3], q < 4) true
      (fun _ => .error .undefined) 0
  exact ⟨c, v, hc, hv, hgate⟩

end QuantumGates
