-- The codes of the network as sets of places. A code stands for the places of its bits: the codes
-- below a power of two are the subsets of the places below its exponent, a change of one bit adds
-- or takes out one member, and the Gray code visits every subset once.
import Mathlib.Combinatorics.Colex
import QuantumGates.Proofs.Circuit.GrayCode

namespace QuantumGates

open Finset

/-! ## Codes as sets -/

/-- The places of the bits of a code. -/
def codeSet (code : ℕ) : Finset ℕ := equivBitIndices code

theorem mem_codeSet {i code : ℕ} : i ∈ codeSet code ↔ code.testBit i = true := by
  unfold codeSet
  rw [equivBitIndices_apply, List.mem_toFinset, Nat.mem_bitIndices]

theorem codeSet_injective : Function.Injective codeSet := equivBitIndices.injective

@[simp] theorem codeSet_zero : codeSet 0 = ∅ := by
  ext i
  simp [mem_codeSet]

/-- A change of one bit adds its place or takes it out. -/
theorem codeSet_xor_two_pow (code t : ℕ) :
    codeSet (code ^^^ 2 ^ t) = symmDiff (codeSet code) {t} := by
  ext i
  rw [mem_codeSet, Nat.testBit_xor, mem_symmDiff, mem_codeSet, mem_singleton,
    Nat.testBit_two_pow, @eq_comm _ i t]
  cases code.testBit i <;> simp

theorem codeSet_two_pow (t : ℕ) : codeSet (2 ^ t) = {t} := by
  ext i
  rw [mem_codeSet, Nat.testBit_two_pow, mem_singleton, decide_eq_true_iff, eq_comm]

/-- The codes below a power of two are the subsets of the places below its exponent. -/
theorem codeSet_subset_range {h code : ℕ} : codeSet code ⊆ range h ↔ code < 2 ^ h := by
  constructor
  · intro hsub
    refine Nat.lt_pow_two_of_testBit _ fun i hi => ?_
    by_contra hbit
    have hmem := hsub (mem_codeSet.mpr (by simpa using hbit))
    exact absurd (mem_range.mp hmem) (by omega)
  · intro hlt i hmem
    rw [mem_range]
    by_contra hge
    have hpow : 2 ^ h ≤ 2 ^ i := Nat.pow_le_pow_right (by omega) (by omega)
    have hoff := Nat.testBit_lt_two_pow (lt_of_lt_of_le hlt hpow)
    rw [mem_codeSet, hoff] at hmem
    exact Bool.false_ne_true hmem

/-- As many members as bits are set. -/
theorem card_codeSet (code : ℕ) : (codeSet code).card = (codeSet (code / 2)).card + code % 2 := by
  have hlength : ∀ c, (codeSet c).card = c.bitIndices.length := by
    intro c
    unfold codeSet
    rw [equivBitIndices_apply, List.toFinset_card_of_nodup Nat.bitIndices_nodup]
  rw [hlength, hlength]
  rcases Nat.mod_two_eq_zero_or_one code with h | h
  · have heven : code = 2 * (code / 2) := by omega
    rw [h]
    conv_lhs => rw [heven, Nat.bitIndices_two_mul, List.length_map]
    rfl
  · have hodd : code = 2 * (code / 2) + 1 := by omega
    rw [h]
    conv_lhs => rw [hodd, Nat.bitIndices_two_mul_add_one, List.length_cons, List.length_map]

/-- The parity of a code is that of the size of its set. -/
theorem evenBits_eq (code : ℕ) : evenBits code = decide (Even (codeSet code).card) := by
  have hgo : ∀ fuel k, k ≤ fuel → evenBits.go fuel k = decide (Even (codeSet k).card) := by
    intro fuel
    induction fuel with
    | zero =>
      intro k hk
      have h0 : k = 0 := by omega
      subst h0
      rfl
    | succ fuel ih =>
      intro k hk
      rw [evenBits.go, ih (k / 2) (by omega), card_codeSet k]
      rcases Nat.mod_two_eq_zero_or_one k with h | h
      · simp [h]
      · rw [h, decide_eq_decide.mpr Nat.even_add_one, decide_not]
        cases decide (Even (codeSet (k / 2)).card) <;> rfl
  exact hgo code code le_rfl

/-! ## The order of the Gray code -/

/-- Every code below a power of two is reached below it. -/
theorem exists_grayCode {h c : ℕ} (hc : c < 2 ^ h) : ∃ m < 2 ^ h, grayCode m = c := by
  induction h generalizing c with
  | zero =>
    have h0 : c = 0 := by simpa using hc
    exact ⟨0, by omega, h0.symm⟩
  | succ h ih =>
    rw [pow_succ] at hc
    obtain ⟨m, hm, hcode⟩ := ih (c := c / 2) (by omega)
    refine ⟨2 * m + (c + m) % 2, by rw [pow_succ]; omega, ?_⟩
    rw [grayCode_bit (Nat.mod_lt _ (by omega)), hcode]
    omega

/-- No code is reached twice. -/
theorem grayCode_injOn (h : ℕ) : Set.InjOn grayCode (range (2 ^ h)) := by
  refine injOn_of_surjOn_of_card_le grayCode (t := range (2 ^ h)) ?_ ?_ le_rfl
  · intro m hm
    simpa using grayCode_lt (by simpa using hm)
  · intro c hc
    obtain ⟨m, hm, hcode⟩ := exists_grayCode (by simpa using hc)
    exact ⟨m, by simpa using hm, hcode⟩

/-- Every subset of the places below `h` is visited. -/
theorem exists_codeSet_grayCode {h : ℕ} {S : Finset ℕ} (hS : S ⊆ range h) :
    ∃ k < 2 ^ h, codeSet (grayCode k) = S := by
  obtain ⟨code, hcode⟩ := equivBitIndices.surjective S
  have hlt : code < 2 ^ h := codeSet_subset_range.mp (by rwa [← hcode] at hS)
  obtain ⟨k, hk, hgray⟩ := exists_grayCode hlt
  exact ⟨k, hk, by rw [hgray]; exact hcode⟩

/-- The place of the bit that changes between a step and the next. -/
def changedPlace (k : ℕ) : ℕ := highestBit (grayCode (k + 1) ^^^ grayCode k)

/-- One bit changes, and its place is among the lower ones. -/
theorem changedPlace_spec {h k : ℕ} (hk : k + 1 < 2 ^ h) :
    changedPlace k < h ∧ grayCode (k + 1) ^^^ grayCode k = 2 ^ changedPlace k := by
  obtain ⟨t, ht, hchange⟩ := grayCode_step hk
  have hplace : changedPlace k = t := by
    unfold changedPlace
    rw [hchange]
    exact Nat.log2_two_pow
  rw [hplace]
  exact ⟨ht, hchange⟩

/-- One member is added to the subset of a step, or taken out, to get that of the next. -/
theorem codeSet_grayCode_succ {h k : ℕ} (hk : k + 1 < 2 ^ h) :
    codeSet (grayCode (k + 1)) = symmDiff (codeSet (grayCode k)) {changedPlace k} := by
  have hnext : grayCode (k + 1) = grayCode k ^^^ 2 ^ changedPlace k := by
    rw [← (changedPlace_spec hk).2, Nat.xor_comm (grayCode (k + 1)), ← Nat.xor_assoc, Nat.xor_self,
      Nat.zero_xor]
  rw [hnext, codeSet_xor_two_pow]

end QuantumGates
