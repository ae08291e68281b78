-- The bits of a basis index. An index of a register is determined by the bits of its qubits,
-- setting a bit changes no other, and the bits of a packed index are the listed bits. Every
-- later law of the register reads an index through these bits and never through its digits.
import Mathlib.Data.Nat.Bitwise
import Mathlib.Tactic
import QuantumGates.Matrix.Embed

namespace QuantumGates

/-! ## One bit -/

theorem bitAt_eq_testBit (n q r : ℕ) : bitAt n q r = (r.testBit (n - 1 - q)).toNat := by
  unfold bitAt
  rw [Nat.testBit_eq_decide_div_mod_eq, Nat.pow_eq]
  rcases Nat.mod_two_eq_zero_or_one (r / 2 ^ (n - 1 - q)) with h | h <;> simp [h]

theorem bitAt_lt (n q r : ℕ) : bitAt n q r < 2 := Nat.mod_lt _ (by omega)

theorem bitAt_cases (n q r : ℕ) : bitAt n q r = 0 ∨ bitAt n q r = 1 := by
  have := bitAt_lt n q r
  omega

/-- Two indices of a register with the same bits are the same. -/
theorem eq_of_bitAt {n r s : ℕ} (hr : r < 2 ^ n) (hs : s < 2 ^ n)
    (h : ∀ q < n, bitAt n q r = bitAt n q s) : r = s := by
  apply Nat.eq_of_testBit_eq
  intro i
  by_cases hi : i < n
  · have hq := h (n - 1 - i) (by omega)
    rw [bitAt_eq_testBit, bitAt_eq_testBit] at hq
    have hi' : n - 1 - (n - 1 - i) = i := by omega
    rw [hi'] at hq
    revert hq
    cases r.testBit i <;> cases s.testBit i <;> simp
  · have hpow : 2 ^ n ≤ 2 ^ i := Nat.pow_le_pow_right (by omega) (by omega)
    rw [Nat.testBit_lt_two_pow (by omega), Nat.testBit_lt_two_pow (by omega)]

/-! ## Setting a bit -/

/-- The digits of an index with one bit set, above and below the place of the bit. -/
theorem setBit_eq (n q b r : ℕ) :
    setBit n q b r = 2 ^ (n - 1 - q) * (2 * (r / 2 ^ (n - 1 - q) / 2) + b) +
      r % 2 ^ (n - 1 - q) := by
  unfold setBit bitAt
  rw [Nat.pow_eq]
  generalize 2 ^ (n - 1 - q) = p
  have h1 := Nat.div_add_mod r p
  have h2 := Nat.div_add_mod (r / p) 2
  have h3 : r = p * (2 * (r / p / 2)) + r / p % 2 * p + r % p := by
    calc r = p * (r / p) + r % p := h1.symm
      _ = p * (2 * (r / p / 2) + r / p % 2) + r % p := by rw [h2]
      _ = _ := by ring
  have h4 : r - r / p % 2 * p = p * (2 * (r / p / 2)) + r % p := by omega
  rw [h4]
  ring

theorem testBit_setBit {b : ℕ} (hb : b < 2) (n q r i : ℕ) :
    (setBit n q b r).testBit i = if i = n - 1 - q then decide (b = 1) else r.testBit i := by
  rw [setBit_eq, Nat.testBit_two_pow_mul_add _ (Nat.mod_lt _ (by positivity))]
  generalize n - 1 - q = p
  rcases Nat.lt_trichotomy i p with h | h | h
  · rw [if_pos h, if_neg (by omega), Nat.testBit_mod_two_pow]
    simp [h]
  · subst h
    rw [if_neg (by omega), if_pos rfl, Nat.sub_self, Nat.testBit_zero]
    have : (2 * (r / 2 ^ i / 2) + b) % 2 = b := by omega
    rw [this]
  · rw [if_neg (by omega), if_neg (by omega)]
    obtain ⟨j, hj⟩ : ∃ j, i = p + 1 + j := ⟨i - p - 1, by omega⟩
    have h1 : i - p = j + 1 := by omega
    have h2 : (2 * (r / 2 ^ p / 2) + b) / 2 = r / 2 ^ (p + 1) := by
      rw [pow_succ, ← Nat.div_div_eq_div_mul]
      omega
    rw [h1, Nat.testBit_succ, h2, Nat.testBit_div_two_pow, hj]
    congr 1
    omega

theorem setBit_lt {n q b r : ℕ} (hb : b < 2) (hq : q < n) (hr : r < 2 ^ n) :
    setBit n q b r < 2 ^ n := by
  apply Nat.lt_pow_two_of_testBit
  intro i hi
  rw [testBit_setBit hb, if_neg (by omega)]
  exact Nat.testBit_lt_two_pow (lt_of_lt_of_le hr (Nat.pow_le_pow_right (by omega) hi))

theorem bitAt_setBit {n p q b r : ℕ} (hb : b < 2) (hp : p < n) (hq : q < n) :
    bitAt n p (setBit n q b r) = if p = q then b else bitAt n p r := by
  rw [bitAt_eq_testBit, testBit_setBit hb, bitAt_eq_testBit]
  by_cases h : p = q
  · subst h
    rw [if_pos rfl, if_pos rfl]
    obtain rfl | rfl : b = 0 ∨ b = 1 := by omega
    · rfl
    · rfl
  · rw [if_neg (by omega), if_neg h]

@[simp] theorem setBit_bitAt (n q r : ℕ) : setBit n q (bitAt n q r) r = r := by
  have h : bitAt n q r * 2 ^ (n - 1 - q) ≤ r := by
    unfold bitAt
    calc _ ≤ r / 2 ^ (n - 1 - q) * 2 ^ (n - 1 - q) :=
          Nat.mul_le_mul_right _ (Nat.mod_le _ _)
      _ ≤ r := Nat.div_mul_le_self _ _
  unfold setBit
  rw [Nat.pow_eq]
  omega

/-- The last of two settings of one bit counts. -/
theorem setBit_setBit {n q b c r : ℕ} (hb : b < 2) (hc : c < 2) :
    setBit n q c (setBit n q b r) = setBit n q c r := by
  apply Nat.eq_of_testBit_eq
  intro i
  rw [testBit_setBit hc, testBit_setBit hc, testBit_setBit hb]
  split <;> rfl

/-! ## Packed bits -/

@[simp] theorem packBits_nil (n r : ℕ) : packBits n [] r = 0 := rfl

/-- Packing on from a number `a` shifts it by the number of bits. -/
theorem foldl_packBits (n : ℕ) (qs : List ℕ) (r a : ℕ) :
    qs.foldl (fun acc q => 2 * acc + bitAt n q r) a = 2 ^ qs.length * a + packBits n qs r := by
  induction qs generalizing a with
  | nil => simp
  | cons q qs ih =>
    have hpack : packBits n (q :: qs) r = 2 ^ qs.length * (2 * 0 + bitAt n q r) +
        packBits n qs r := ih _
    rw [List.foldl_cons, ih, hpack, List.length_cons, pow_succ]
    ring

theorem packBits_cons (n q : ℕ) (qs : List ℕ) (r : ℕ) :
    packBits n (q :: qs) r = 2 ^ qs.length * bitAt n q r + packBits n qs r := by
  have h : packBits n (q :: qs) r = 2 ^ qs.length * (2 * 0 + bitAt n q r) + packBits n qs r :=
    foldl_packBits n qs r _
  rw [h]
  ring

theorem packBits_append_singleton (n : ℕ) (qs : List ℕ) (q r : ℕ) :
    packBits n (qs ++ [q]) r = 2 * packBits n qs r + bitAt n q r := by
  unfold packBits
  rw [List.foldl_append]
  rfl

theorem packBits_lt (n : ℕ) (qs : List ℕ) (r : ℕ) : packBits n qs r < 2 ^ qs.length := by
  induction qs with
  | nil => simp
  | cons q qs ih =>
    rw [packBits_cons, List.length_cons, pow_succ]
    have := bitAt_lt n q r
    have : bitAt n q r ≤ 1 := by omega
    nlinarith

/-- The most significant bit of an index of one more qubit. -/
theorem bitAt_zero_add {k b m : ℕ} (hb : b < 2) (hm : m < 2 ^ k) :
    bitAt (k + 1) 0 (2 ^ k * b + m) = b := by
  rw [bitAt_eq_testBit, Nat.testBit_two_pow_mul_add _ hm, if_neg (by omega)]
  have h : k + 1 - 1 - 0 - k = 0 := by omega
  rw [h, Nat.testBit_zero, Nat.mod_eq_of_lt hb]
  obtain rfl | rfl : b = 0 ∨ b = 1 := by omega
  · rfl
  · rfl

/-- The other bits of an index of one more qubit. -/
theorem bitAt_succ_add {k i b m : ℕ} (hi : i < k) (hm : m < 2 ^ k) :
    bitAt (k + 1) (i + 1) (2 ^ k * b + m) = bitAt k i m := by
  rw [bitAt_eq_testBit, bitAt_eq_testBit, Nat.testBit_two_pow_mul_add _ hm, if_pos (by omega)]
  have h : k + 1 - 1 - (i + 1) = k - 1 - i := by omega
  rw [h]

/-- The bits of a packed index are the listed bits. -/
theorem bitAt_packBits (n : ℕ) (qs : List ℕ) (r : ℕ) {i : ℕ} (hi : i < qs.length) :
    bitAt qs.length i (packBits n qs r) = bitAt n qs[i] r := by
  induction qs generalizing i with
  | nil => simp at hi
  | cons q qs ih =>
    rw [packBits_cons]
    cases i with
    | zero => exact bitAt_zero_add (bitAt_lt n q r) (packBits_lt n qs r)
    | succ i =>
      rw [List.length_cons] at hi
      exact (bitAt_succ_add (by omega) (packBits_lt n qs r)).trans (ih (by omega))

/-- Packing reads nothing but the listed bits. -/
theorem packBits_congr {n : ℕ} {qs : List ℕ} {r s : ℕ}
    (h : ∀ q ∈ qs, bitAt n q r = bitAt n q s) : packBits n qs r = packBits n qs s := by
  induction qs with
  | nil => rfl
  | cons q qs ih =>
    rw [packBits_cons, packBits_cons, h q (by simp), ih fun p hp => h p (by simp [hp])]

/-- The packed bits are all 1 if the number is the last of its length. -/
theorem packBits_eq_last_iff {n : ℕ} {qs : List ℕ} {r : ℕ} :
    packBits n qs r = 2 ^ qs.length - 1 ↔ ∀ q ∈ qs, bitAt n q r = 1 := by
  induction qs with
  | nil => simp
  | cons q qs ih =>
    have hlt := packBits_lt n qs r
    have hpos := Nat.two_pow_pos qs.length
    rw [List.forall_mem_cons, ← ih, packBits_cons, List.length_cons, pow_succ]
    rcases bitAt_cases n q r with h | h
    · rw [h, Nat.mul_zero]
      omega
    · rw [h, Nat.mul_one]
      omega

/-- Packing all bits of an index in their order gives the index. -/
theorem packBits_range {n r : ℕ} (hr : r < 2 ^ n) : packBits n (List.range n) r = r := by
  have hlt := packBits_lt n (List.range n) r
  rw [List.length_range] at hlt
  refine eq_of_bitAt hlt hr fun q hq => ?_
  have hbit := bitAt_packBits n (List.range n) r (i := q) (by simpa using hq)
  simpa using hbit

/-! ## Replaced bits -/

theorem replaceBits_cons (n q : ℕ) (qs : List ℕ) (j r : ℕ) :
    replaceBits n (q :: qs) j r =
      replaceBits n qs j (setBit n q (bitAt (qs.length + 1) 0 j) r) := rfl

theorem replaceBits_lt {n : ℕ} {qs : List ℕ} {j r : ℕ} (hq : ∀ q ∈ qs, q < n)
    (hr : r < 2 ^ n) : replaceBits n qs j r < 2 ^ n := by
  induction qs generalizing r with
  | nil => exact hr
  | cons q qs ih =>
    rw [replaceBits_cons]
    exact ih (fun p hp => hq p (by simp [hp]))
      (setBit_lt (bitAt_lt _ _ _) (hq q (by simp)) hr)

/-- A bit that is not listed stays. -/
theorem bitAt_replaceBits_of_notMem {n : ℕ} {qs : List ℕ} {j r p : ℕ} (hq : ∀ q ∈ qs, q < n)
    (hp : p < n) (h : p ∉ qs) : bitAt n p (replaceBits n qs j r) = bitAt n p r := by
  induction qs generalizing r with
  | nil => rfl
  | cons q qs ih =>
    rw [List.mem_cons, not_or] at h
    rw [replaceBits_cons, ih (fun p hp => hq p (by simp [hp])) h.2,
      bitAt_setBit (bitAt_lt _ _ _) hp (hq q (by simp)), if_neg h.1]

/-- A listed bit becomes the bit of the new number at its place of the list. -/
theorem bitAt_replaceBits {n : ℕ} {qs : List ℕ} {j r i : ℕ} (hd : qs.Nodup)
    (hq : ∀ q ∈ qs, q < n) (hi : i < qs.length) :
    bitAt n qs[i] (replaceBits n qs j r) = bitAt qs.length i j := by
  induction qs generalizing r i with
  | nil => simp at hi
  | cons q qs ih =>
    rw [List.nodup_cons] at hd
    have hq' : ∀ p ∈ qs, p < n := fun p hp => hq p (by simp [hp])
    rw [replaceBits_cons]
    cases i with
    | zero =>
      have hqn := hq q (by simp)
      rw [List.getElem_cons_zero, bitAt_replaceBits_of_notMem hq' hqn hd.1,
        bitAt_setBit (bitAt_lt _ _ _) hqn hqn, if_pos rfl, List.length_cons]
    | succ i =>
      have hi' : i < qs.length := by simpa using hi
      rw [List.getElem_cons_succ, ih hd.2 hq' hi', List.length_cons]
      unfold bitAt
      have h : qs.length + 1 - 1 - (i + 1) = qs.length - 1 - i := by omega
      rw [h]

/-- What replaced bits are read back as. -/
theorem packBits_replaceBits {n : ℕ} {qs : List ℕ} {j r : ℕ} (hd : qs.Nodup)
    (hq : ∀ q ∈ qs, q < n) (hj : j < 2 ^ qs.length) :
    packBits n qs (replaceBits n qs j r) = j := by
  refine eq_of_bitAt (packBits_lt n qs _) hj fun i hi => ?_
  rw [bitAt_packBits n qs _ hi, bitAt_replaceBits hd hq hi]

/-- Two indices with the same listed bits and the same other bits are the same. -/
theorem eq_of_listed_bits {n : ℕ} (qs : List ℕ) {r s : ℕ} (hr : r < 2 ^ n) (hs : s < 2 ^ n)
    (hin : ∀ (i : ℕ) (hi : i < qs.length), bitAt n qs[i] r = bitAt n qs[i] s)
    (hout : ∀ q < n, q ∉ qs → bitAt n q r = bitAt n q s) : r = s := by
  refine eq_of_bitAt hr hs fun q hq => ?_
  by_cases hmem : q ∈ qs
  · obtain ⟨i, hi, rfl⟩ := List.getElem_of_mem hmem
    exact hin i hi
  · exact hout q hq hmem

/-- An index that differs in the listed bits only is the other one with these bits replaced. -/
theorem eq_replaceBits {n : ℕ} {qs : List ℕ} {r s : ℕ} (hd : qs.Nodup) (hq : ∀ q ∈ qs, q < n)
    (hs : s < 2 ^ n) (hr : r < 2 ^ n)
    (hother : ∀ q < n, q ∉ qs → bitAt n q s = bitAt n q r) :
    s = replaceBits n qs (packBits n qs s) r := by
  refine eq_of_listed_bits qs hs (replaceBits_lt hq hr) (fun i hi => ?_)
    fun q hqn hmem => ?_
  · rw [bitAt_replaceBits hd hq hi, bitAt_packBits n qs s hi]
  · rw [bitAt_replaceBits_of_notMem hq hqn hmem, hother q hqn hmem]

/-- Replacing bits by themselves changes nothing. -/
theorem replaceBits_packBits {n : ℕ} {qs : List ℕ} {r : ℕ} (hd : qs.Nodup)
    (hq : ∀ q ∈ qs, q < n) (hr : r < 2 ^ n) : replaceBits n qs (packBits n qs r) r = r :=
  (eq_replaceBits hd hq hr hr fun _ _ _ => rfl).symm

/-- The last of two replacements of the same bits counts. -/
theorem replaceBits_replaceBits {n : ℕ} {qs : List ℕ} {i j r : ℕ} (hd : qs.Nodup)
    (hq : ∀ q ∈ qs, q < n) (hr : r < 2 ^ n) :
    replaceBits n qs j (replaceBits n qs i r) = replaceBits n qs j r := by
  refine eq_of_listed_bits qs (replaceBits_lt hq (replaceBits_lt hq hr))
    (replaceBits_lt hq hr) (fun k hk => ?_) fun q hqn hmem => ?_
  · rw [bitAt_replaceBits hd hq hk, bitAt_replaceBits hd hq hk]
  · rw [bitAt_replaceBits_of_notMem hq hqn hmem, bitAt_replaceBits_of_notMem hq hqn hmem,
      bitAt_replaceBits_of_notMem hq hqn hmem]

/-- Indices with the same bits outside a list differ in listed bits only. -/
theorem replaceBits_packBits_eq_iff {n : ℕ} {qs : List ℕ} {r c : ℕ} (hd : qs.Nodup)
    (hq : ∀ q ∈ qs, q < n) (hr : r < 2 ^ n) (hc : c < 2 ^ n) :
    replaceBits n qs (packBits n qs c) r = c ↔
      ∀ q < n, q ∉ qs → bitAt n q r = bitAt n q c := by
  constructor
  · intro heq q hqn hmem
    rw [← heq, bitAt_replaceBits_of_notMem hq hqn hmem]
  · intro hsame
    exact (eq_replaceBits hd hq hc hr fun q hqn hmem => (hsame q hqn hmem).symm).symm

/-- To replace all bits of an index in their order is to take the new number. -/
theorem replaceBits_range {n j r : ℕ} (hj : j < 2 ^ n) (hr : r < 2 ^ n) :
    replaceBits n (List.range n) j r = j := by
  have h := eq_replaceBits List.nodup_range (fun q hq => List.mem_range.mp hq) hj hr
    fun q hqn hmem => absurd (List.mem_range.mpr hqn) hmem
  rw [packBits_range hj] at h
  exact h.symm

/-- An index with replaced bits has the new number at the listed bits and the old bits elsewhere. -/
theorem replaceBits_eq_iff {n : ℕ} {qs : List ℕ} {j r c : ℕ} (hd : qs.Nodup)
    (hq : ∀ q ∈ qs, q < n) (hj : j < 2 ^ qs.length) (hr : r < 2 ^ n) (hc : c < 2 ^ n) :
    replaceBits n qs j r = c ↔
      (∀ q < n, q ∉ qs → bitAt n q r = bitAt n q c) ∧ j = packBits n qs c := by
  constructor
  · rintro rfl
    exact ⟨fun q hqn hmem => (bitAt_replaceBits_of_notMem hq hqn hmem).symm,
      (packBits_replaceBits hd hq hj).symm⟩
  · rintro ⟨hsame, rfl⟩
    exact (replaceBits_packBits_eq_iff hd hq hr hc).mpr hsame

/-! ## Bits on disjoint qubits -/

/-- Replacing bits leaves those of other qubits as they are. -/
theorem packBits_replaceBits_of_disjoint {n : ℕ} {ps qs : List ℕ} {j r : ℕ}
    (hdis : ps.Disjoint qs) (hp : ∀ p ∈ ps, p < n) (hq : ∀ q ∈ qs, q < n) :
    packBits n ps (replaceBits n qs j r) = packBits n ps r :=
  packBits_congr fun p hmem => bitAt_replaceBits_of_notMem hq (hp p hmem) (hdis hmem)

/-- Bits of disjoint qubits are replaced in any order. -/
theorem replaceBits_comm {n : ℕ} {ps qs : List ℕ} {i j r : ℕ} (hdis : ps.Disjoint qs)
    (hdp : ps.Nodup) (hp : ∀ p ∈ ps, p < n) (hdq : qs.Nodup) (hq : ∀ q ∈ qs, q < n)
    (hr : r < 2 ^ n) :
    replaceBits n ps i (replaceBits n qs j r) = replaceBits n qs j (replaceBits n ps i r) := by
  have hleft := replaceBits_lt hp (j := i) (replaceBits_lt hq (j := j) hr)
  have hright := replaceBits_lt hq (j := j) (replaceBits_lt hp (j := i) hr)
  refine eq_of_bitAt hleft hright fun q hqn => ?_
  by_cases hmemp : q ∈ ps
  · have hmemq : q ∉ qs := hdis hmemp
    obtain ⟨k, hk, rfl⟩ := List.getElem_of_mem hmemp
    rw [bitAt_replaceBits hdp hp hk, bitAt_replaceBits_of_notMem hq hqn hmemq,
      bitAt_replaceBits hdp hp hk]
  · rw [bitAt_replaceBits_of_notMem hp hqn hmemp]
    by_cases hmemq : q ∈ qs
    · obtain ⟨k, hk, rfl⟩ := List.getElem_of_mem hmemq
      rw [bitAt_replaceBits hdq hq hk, bitAt_replaceBits hdq hq hk]
    · rw [bitAt_replaceBits_of_notMem hq hqn hmemq, bitAt_replaceBits_of_notMem hq hqn hmemq,
        bitAt_replaceBits_of_notMem hp hqn hmemp]

end QuantumGates
