-- The Gray code as an order of the subsets of a list. Each code differs from the one before in a
-- single bit, the codes below a power of two are all numbers below it, and the product of signs
-- over a subset, added up over all subsets, is a product of sums.
import Mathlib.Algebra.BigOperators.Group.Finset.Basic
import Mathlib.Algebra.BigOperators.Ring.Finset
import Mathlib.Data.Nat.Bitwise
import Mathlib.Tactic.Ring
import QuantumGates.Circuit.ParityNetwork

namespace QuantumGates

open Finset

/-! ## Codes -/

/-- The last bit of a code tells whether the last two bits of the number differ. -/
theorem grayCode_bit {b : ℕ} (hb : b < 2) (k : ℕ) :
    grayCode (2 * k + b) = 2 * grayCode k + (b + k) % 2 := by
  have hdiv : (2 * k + b) >>> 1 = k := by
    rw [Nat.shiftRight_one]
    omega
  have hupper : grayCode (2 * k + b) / 2 = grayCode k := by
    unfold grayCode
    have hhalf : (2 * k + b) / 2 = k := by omega
    rw [hdiv, Nat.xor_div_two, Nat.shiftRight_one, hhalf]
  have hlower : grayCode (2 * k + b) % 2 = (b + k) % 2 := by
    unfold grayCode
    rw [hdiv, Nat.xor_mod_two_eq]
    omega
  omega

theorem grayCode_lt {h m : ℕ} (hm : m < 2 ^ h) : grayCode m < 2 ^ h := by
  unfold grayCode
  refine Nat.xor_lt_two_pow hm ?_
  rw [Nat.shiftRight_one]
  omega

/-- The last code below a power of two has the highest bit only. -/
theorem grayCode_last (h : ℕ) : grayCode (2 ^ (h + 1) - 1) = 2 ^ h := by
  induction h with
  | zero => rfl
  | succ h ih =>
    have hpos : 0 < 2 ^ h := Nat.two_pow_pos h
    have hsplit : 2 ^ (h + 1 + 1) - 1 = 2 * (2 ^ (h + 1) - 1) + 1 := by omega
    rw [hsplit, grayCode_bit (by omega), ih]
    omega

theorem xor_bits {b c : ℕ} (hb : b < 2) (hc : c < 2) (j k : ℕ) :
    (2 * j + b) ^^^ (2 * k + c) = 2 * (j ^^^ k) + (b + c) % 2 := by
  have hupper : ((2 * j + b) ^^^ (2 * k + c)) / 2 = j ^^^ k := by
    rw [Nat.xor_div_two]
    congr 1 <;> omega
  have hlower : ((2 * j + b) ^^^ (2 * k + c)) % 2 = (b + c) % 2 := by
    rw [Nat.xor_mod_two_eq]
    omega
  omega

/-- One bit leads from each code to the next. -/
theorem grayCode_step {h m : ℕ} (hm : m + 1 < 2 ^ h) :
    ∃ t < h, grayCode (m + 1) ^^^ grayCode m = 2 ^ t := by
  -- The bit that changes is the lowest one of the number: an odd number differs from the one
  -- before in its last bit, and an even one does what its half does, one place higher.
  induction h generalizing m with
  | zero => omega
  | succ h ih =>
    obtain ⟨k, hk | hk⟩ : ∃ k, m = 2 * k ∨ m = 2 * k + 1 := ⟨m / 2, by omega⟩
    · refine ⟨0, by omega, ?_⟩
      have hm0 : m = 2 * k + 0 := by omega
      have hm1 : m + 1 = 2 * k + 1 := by omega
      rw [hm1, hm0, grayCode_bit (by omega), grayCode_bit (by omega),
        xor_bits (Nat.mod_lt _ (by omega)) (Nat.mod_lt _ (by omega)), Nat.xor_self]
      omega
    · obtain ⟨t, ht, hflip⟩ := ih (m := k) (by omega)
      refine ⟨t + 1, by omega, ?_⟩
      have hm1 : m + 1 = 2 * (k + 1) + 0 := by omega
      rw [hm1, hk, grayCode_bit (by omega), grayCode_bit (by omega),
        xor_bits (Nat.mod_lt _ (by omega)) (Nat.mod_lt _ (by omega)), hflip]
      omega

/-- At most one bit leads from the code of the step before to that of a step. -/
theorem grayCode_change {h m : ℕ} (hm : m < 2 ^ h) :
    grayCode m ^^^ grayCode (m - 1) = 0 ∨
      ∃ t < h, grayCode m ^^^ grayCode (m - 1) = 2 ^ t := by
  cases m with
  | zero => exact .inl (Nat.xor_self _)
  | succ m => exact .inr (grayCode_step hm)

/-- At most one bit leads back from the last code. -/
theorem grayCode_close (h : ℕ) :
    grayCode (2 ^ h - 1) = 0 ∨ ∃ t < h, grayCode (2 ^ h - 1) = 2 ^ t := by
  cases h with
  | zero => exact .inl rfl
  | succ h => exact .inr ⟨h, by omega, grayCode_last h⟩

/-! ## Sums over all codes -/

theorem sum_range_two_mul {M : Type} [AddCommMonoid M] (n : ℕ) (f : ℕ → M) :
    ∑ k ∈ range (2 * n), f k = ∑ k ∈ range n, (f (2 * k) + f (2 * k + 1)) := by
  induction n with
  | zero => rfl
  | succ n ih => rw [Nat.mul_succ, sum_range_succ, sum_range_succ, ih, sum_range_succ, add_assoc]

/-- A sum in the order of the code is the sum in the order of the numbers. -/
theorem sum_grayCode {M : Type} [AddCommMonoid M] (h : ℕ) (f : ℕ → M) :
    ∑ m ∈ range (2 ^ h), f (grayCode m) = ∑ c ∈ range (2 ^ h), f c := by
  induction h generalizing f with
  | zero => rfl
  | succ h ih =>
    rw [Nat.pow_succ', sum_range_two_mul, sum_range_two_mul,
      ← ih fun c => f (2 * c) + f (2 * c + 1)]
    refine sum_congr rfl fun k _ => ?_
    have h0 : grayCode (2 * k) = 2 * grayCode k + (0 + k) % 2 :=
      grayCode_bit (b := 0) (by omega) k
    have h1 : grayCode (2 * k + 1) = 2 * grayCode k + (1 + k) % 2 := grayCode_bit (by omega) k
    rw [h0, h1]
    rcases Nat.mod_two_eq_zero_or_one k with hk | hk
    · have hk0 : (0 + k) % 2 = 0 := by omega
      have hk1 : (1 + k) % 2 = 1 := by omega
      rw [hk0, hk1, Nat.add_zero]
    · have hk0 : (0 + k) % 2 = 1 := by omega
      have hk1 : (1 + k) % 2 = 0 := by omega
      rw [hk0, hk1, add_comm]
      rfl

/-! ## Products over a subset -/

/-- The product of the listed signs at the bits of a code, the lowest bit for the first. -/
def foldedSign : List ℤ → ℕ → ℤ
  | [], _ => 1
  | s :: ss, code => (if code % 2 = 1 then s else 1) * foldedSign ss (code / 2)

@[simp] theorem foldedSign_zero (ss : List ℤ) : foldedSign ss 0 = 1 := by
  induction ss with
  | nil => rfl
  | cons s ss ih =>
    unfold foldedSign
    rw [Nat.zero_div, ih]
    rfl

/-- To add an element to a subset, or to take it out, is to multiply by its sign. -/
theorem foldedSign_flip {ss : List ℤ} (hs : ∀ s ∈ ss, s * s = 1) {t : ℕ} (ht : t < ss.length)
    (code : ℕ) : foldedSign ss (code ^^^ 2 ^ t) = ss[t] * foldedSign ss code := by
  induction ss generalizing t code with
  | nil => cases ht
  | cons s ss ih =>
    unfold foldedSign
    rw [Nat.xor_div_two, Nat.xor_mod_two_eq]
    cases t with
    | zero =>
      have hhalf : code / 2 ^^^ 2 ^ 0 / 2 = code / 2 := Nat.xor_zero _
      rw [hhalf, List.getElem_cons_zero]
      rcases Nat.mod_two_eq_zero_or_one code with h0 | h0
      · have hodd : (code + 2 ^ 0) % 2 = 1 := by omega
        rw [if_pos hodd, if_neg (by omega), one_mul]
      · have heven : (code + 2 ^ 0) % 2 ≠ 1 := by omega
        rw [if_neg heven, if_pos h0, ← mul_assoc, hs s (by simp)]
    | succ t =>
      have hhalf : 2 ^ (t + 1) / 2 = 2 ^ t := by omega
      have hsame : (code + 2 ^ (t + 1)) % 2 = code % 2 := by omega
      rw [hhalf, hsame, List.getElem_cons_succ,
        ih (fun u hu => hs u (by simp [hu])) (by simpa using ht) (code / 2)]
      ring

/-- The products over all subsets add up to a product of sums. -/
theorem sum_foldedSign (ss : List ℤ) :
    ∑ c ∈ range (2 ^ ss.length), foldedSign ss c = (ss.map fun s => 1 + s).prod := by
  induction ss with
  | nil => rfl
  | cons s ss ih =>
    rw [List.length_cons, Nat.pow_succ', sum_range_two_mul, List.map_cons, List.prod_cons, ← ih,
      mul_sum]
    refine sum_congr rfl fun c _ => ?_
    have heven : foldedSign (s :: ss) (2 * c) = foldedSign ss c := by
      have hhalf : 2 * c / 2 = c := by omega
      rw [foldedSign, if_neg (by omega), one_mul, hhalf]
    have hodd : foldedSign (s :: ss) (2 * c + 1) = s * foldedSign ss c := by
      have hhalf : (2 * c + 1) / 2 = c := by omega
      rw [foldedSign, if_pos (by omega), hhalf]
    rw [heven, hodd]
    ring

/-- Signs of the opposite kind give the product with the sign of the size of the subset. -/
theorem foldedSign_neg {ss : List ℤ} {code : ℕ} (hc : code < 2 ^ ss.length) :
    foldedSign (ss.map fun s => -s) code =
      (if evenBits code then 1 else -1) * foldedSign ss code := by
  have hgo : ∀ {ss : List ℤ} {fuel code : ℕ}, code < 2 ^ ss.length → code ≤ fuel →
      foldedSign (ss.map fun s => -s) code =
        (if evenBits.go fuel code then 1 else -1) * foldedSign ss code := by
    intro ss
    induction ss with
    | nil =>
      intro fuel code hc hf
      have h0 : code = 0 := by simpa using hc
      subst h0
      have hgo0 : ∀ fuel, evenBits.go fuel 0 = true := by
        intro fuel
        induction fuel with
        | zero => rfl
        | succ fuel ih =>
          unfold evenBits.go
          rw [Nat.zero_div, ih]
          rfl
      rw [hgo0]
      rfl
    | cons s ss ih =>
      intro fuel code hc hf
      rw [List.length_cons, Nat.pow_succ] at hc
      cases fuel with
      | zero =>
        have h0 : code = 0 := by omega
        subst h0
        rw [foldedSign_zero, foldedSign_zero]
        rfl
      | succ fuel =>
        rw [List.map_cons, foldedSign, foldedSign, evenBits.go,
          ih (by omega : code / 2 < _) (by omega : code / 2 ≤ fuel)]
        rcases Nat.mod_two_eq_zero_or_one code with h0 | h0
        · rw [h0]
          simp
        · rw [h0]
          cases evenBits.go fuel (code / 2) <;> simp
  exact hgo hc le_rfl

end QuantumGates
