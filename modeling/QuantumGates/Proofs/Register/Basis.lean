-- How lifted gates read the basis. A gate with a single entry in a row reads one index there. A
-- gate that sends each basis state to one basis state, with a weight, is told by the map and the
-- weight, and so is a sequence of such gates.
import QuantumGates.Proofs.Register.Lift

namespace QuantumGates

open Finset

section

variable {K : Type} [Semiring K]

/-! ## Rows of one entry -/

theorem spreadRow_one (m : Mat K) (q n : ℕ) (f : ℕ → K) (r : ℕ) :
    spreadRow m [q] n f r = m.get (bitAt n q r) 0 * f (setBit n q 0 r) +
      m.get (bitAt n q r) 1 * f (setBit n q 1 r) := by
  have hpack : packBits n [q] r = bitAt n q r := by simp [packBits_cons]
  unfold spreadRow
  rw [hpack]
  show ∑ j ∈ range 2, _ = _
  rw [sum_range_succ, sum_range_one]
  rfl

/-- A row with a single entry reads the function in one place. -/
theorem spreadRow_eq_of_row {m : Mat K} {qs : List ℕ} {n k r : ℕ} {w : K} (f : ℕ → K)
    (hk : k < 2 ^ qs.length)
    (h : ∀ j < 2 ^ qs.length, m.get (packBits n qs r) j = if j = k then w else 0) :
    spreadRow m qs n f r = w * f (replaceBits n qs k r) := by
  unfold spreadRow
  rw [sum_eq_single k]
  · rw [h k hk, if_pos rfl]
  · intro j hj hne
    rw [h j (mem_range.mp hj), if_neg hne, zero_mul]
  · intro hmem
    exact absurd (mem_range.mpr hk) hmem

/-- A diagonal gate weighs each row by the entry at the listed bits. -/
theorem spreadRow_diagonal (qs : List ℕ) {n r : ℕ} (d f : ℕ → K) (hd : qs.Nodup)
    (hq : ∀ q ∈ qs, q < n) (hr : r < 2 ^ n) :
    spreadRow (Mat.diagonal (2 ^ qs.length) d) qs n f r = d (packBits n qs r) * f r := by
  have hp := packBits_lt n qs r
  rw [spreadRow_eq_of_row f hp, replaceBits_packBits hd hq hr]
  intro j hj
  rw [Mat.get_diagonal d hp hj]
  by_cases hj' : j = packBits n qs r
  · rw [if_pos hj', if_pos hj'.symm]
  · rw [if_neg hj', if_neg fun h => hj' h.symm]

theorem packBits_two (n p q r : ℕ) : packBits n [p, q] r = 2 * bitAt n p r + bitAt n q r := by
  simp [packBits_cons]

theorem packBits_three (n a b t x : ℕ) :
    packBits n [a, b, t] x = 4 * bitAt n a x + 2 * bitAt n b x + bitAt n t x := by
  simp [packBits_cons]
  omega

theorem replaceBits_two {a b : ℕ} (ha : a < 2) (hb : b < 2) (n p q r : ℕ) :
    replaceBits n [p, q] (2 * a + b) r = setBit n q b (setBit n p a r) := by
  have hhigh : bitAt 2 0 (2 * a + b) = a := by
    unfold bitAt
    show (2 * a + b) / 2 % 2 = a
    omega
  have hlow : bitAt 1 0 (2 * a + b) = b := by
    unfold bitAt
    show (2 * a + b) / 1 % 2 = b
    omega
  show setBit n q (bitAt 1 0 (2 * a + b)) (setBit n p (bitAt 2 0 (2 * a + b)) r) = _
  rw [hhigh, hlow]

/-! ## The controlled flip and the exchange -/

/-- The index with the bit of `t` flipped if the bit of `p` is 1. -/
def flipIf (n p t r : ℕ) : ℕ := if bitAt n p r = 1 then setBit n t (1 - bitAt n t r) r else r

theorem flipIf_lt {n p t r : ℕ} (ht : t < n) (hr : r < 2 ^ n) : flipIf n p t r < 2 ^ n := by
  unfold flipIf
  split
  · exact setBit_lt (by omega) ht hr
  · exact hr

/-- A controlled flip undoes itself. -/
theorem flipIf_flipIf {n p t r : ℕ} (hp : p < n) (ht : t < n) (h : p ≠ t) :
    flipIf n p t (flipIf n p t r) = r := by
  have hb := bitAt_lt n t r
  unfold flipIf
  by_cases h1 : bitAt n p r = 1
  · have hp1 : bitAt n p (setBit n t (1 - bitAt n t r) r) = 1 := by
      rw [bitAt_setBit (by omega) hp ht, if_neg h, h1]
    have ht1 : 1 - (1 - bitAt n t r) = bitAt n t r := by omega
    rw [if_pos h1, if_pos hp1, bitAt_setBit (by omega) ht ht, if_pos rfl,
      setBit_setBit (by omega) (by omega), ht1, setBit_bitAt]
  · rw [if_neg h1, if_neg h1]

/-- The target gets the parity of its own bit and the control, and no other bit changes. -/
theorem bitAt_flipIf {n p t s r : ℕ} (ht : t < n) (hs : s < n) :
    bitAt n s (flipIf n p t r) =
      if s = t then (bitAt n t r + bitAt n p r) % 2 else bitAt n s r := by
  have hb := bitAt_lt n t r
  unfold flipIf
  rcases bitAt_cases n p r with h | h
  · rw [h, if_neg (by omega), Nat.add_zero, Nat.mod_eq_of_lt hb]
    by_cases hst : s = t
    · rw [if_pos hst, hst]
    · rw [if_neg hst]
  · have hflip : 1 - bitAt n t r = (bitAt n t r + 1) % 2 := by omega
    rw [h, if_pos rfl, bitAt_setBit (by omega) hs ht, hflip]

/-- The index with the bit of `t` flipped if all bits of `controls` are 1. -/
def flipIfAll (n : ℕ) (controls : List ℕ) (t r : ℕ) : ℕ :=
  if ∀ q ∈ controls, bitAt n q r = 1 then setBit n t (1 - bitAt n t r) r else r

theorem flipIfAll_lt {n t r : ℕ} (controls : List ℕ) (ht : t < n) (hr : r < 2 ^ n) :
    flipIfAll n controls t r < 2 ^ n := by
  unfold flipIfAll
  split
  · exact setBit_lt (by omega) ht hr
  · exact hr

theorem bitAt_flipIfAll {n : ℕ} {controls : List ℕ} {s t x : ℕ} (ht : t < n) (hs : s < n) :
    bitAt n s (flipIfAll n controls t x) =
      if s = t ∧ ∀ q ∈ controls, bitAt n q x = 1 then 1 - bitAt n t x else bitAt n s x := by
  unfold flipIfAll
  by_cases hall : ∀ q ∈ controls, bitAt n q x = 1
  · rw [if_pos hall, bitAt_setBit (by omega) hs ht]
    simp only [and_iff_left hall]
  · rw [if_neg hall, if_neg]
    rintro ⟨-, h⟩
    exact hall h

/-- A flip of the target undoes itself. -/
theorem flipIfAll_flipIfAll {n t : ℕ} {controls : List ℕ} (ht : t < n)
    (hc : ∀ q ∈ controls, q < n) (hne : t ∉ controls) (x : ℕ) :
    flipIfAll n controls t (flipIfAll n controls t x) = x := by
  have hb := bitAt_lt n t x
  unfold flipIfAll
  by_cases hall : ∀ q ∈ controls, bitAt n q x = 1
  · have hall' : ∀ q ∈ controls, bitAt n q (setBit n t (1 - bitAt n t x) x) = 1 := by
      intro q hmem
      rw [bitAt_setBit (by omega) (hc q hmem) ht, if_neg]
      · exact hall q hmem
      · intro heq
        exact hne (heq ▸ hmem)
    have hbit : 1 - (1 - bitAt n t x) = bitAt n t x := by omega
    rw [if_pos hall, if_pos hall', bitAt_setBit (by omega) ht ht, if_pos rfl,
      setBit_setBit (by omega) (by omega), hbit, setBit_bitAt]
  · rw [if_neg hall, if_neg hall]

/-- The index with the bits of two qubits exchanged. -/
def exchangeBits (n p q r : ℕ) : ℕ := setBit n q (bitAt n p r) (setBit n p (bitAt n q r) r)

theorem exchangeBits_lt {n p q r : ℕ} (hp : p < n) (hq : q < n) (hr : r < 2 ^ n) :
    exchangeBits n p q r < 2 ^ n :=
  setBit_lt (bitAt_lt _ _ _) hq (setBit_lt (bitAt_lt _ _ _) hp hr)

theorem bitAt_exchangeBits {n p q s r : ℕ} (hp : p < n) (hq : q < n) (hs : s < n) :
    bitAt n s (exchangeBits n p q r) =
      if s = q then bitAt n p r else if s = p then bitAt n q r else bitAt n s r := by
  unfold exchangeBits
  rw [bitAt_setBit (bitAt_lt _ _ _) hs hq, bitAt_setBit (bitAt_lt _ _ _) hs hp]

/-! ## Weighted maps of the basis -/

/-- The matrix sends the basis state `c` to the state `σ c` with the weight `w c`. -/
def Mat.ActsOnBasis (m : Mat K) (n : ℕ) (σ : ℕ → ℕ) (w : ℕ → K) : Prop :=
  m.IsSquare (2 ^ n) ∧ ∀ c < 2 ^ n, σ c < 2 ^ n ∧
    ∀ r < 2 ^ n, m.get r c = if r = σ c then w c else 0

theorem Mat.actsOnBasis_identity (n : ℕ) :
    (Mat.identity (2 ^ n) : Mat K).ActsOnBasis n (fun c => c) (fun _ => 1) :=
  ⟨Mat.isSquare_identity _, fun _ hc => ⟨hc, fun _ hr => Mat.get_identity hr hc⟩⟩

theorem Mat.ActsOnBasis.mul {a b : Mat K} {n : ℕ} {σ τ : ℕ → ℕ} {w v : ℕ → K}
    (ha : a.ActsOnBasis n σ w) (hb : b.ActsOnBasis n τ v) :
    (a.mul b).ActsOnBasis n (fun c => σ (τ c)) (fun c => w (τ c) * v c) := by
  refine ⟨ha.1.mul hb.1, fun c hc => ?_⟩
  have hτ := (hb.2 c hc).1
  refine ⟨(ha.2 _ hτ).1, fun r hr => ?_⟩
  rw [Mat.get_mul ha.1 hb.1 hr hc, sum_eq_single (τ c)]
  · rw [(hb.2 c hc).2 _ hτ, if_pos rfl, (ha.2 _ hτ).2 r hr, ite_mul, zero_mul]
  · intro k hk hne
    rw [(hb.2 c hc).2 k (mem_range.mp hk), if_neg hne, mul_zero]
  · intro h
    exact absurd (mem_range.mpr hτ) h

/-- A matrix that leaves every basis state in place is diagonal. -/
theorem Mat.ActsOnBasis.eq_diagonal {m : Mat K} {n : ℕ} {σ : ℕ → ℕ} {w v : ℕ → K}
    (h : m.ActsOnBasis n σ w) (hσ : ∀ c < 2 ^ n, σ c = c) (hw : ∀ c < 2 ^ n, w c = v c) :
    m = Mat.diagonal (2 ^ n) v := by
  refine h.1.ext (Mat.isSquare_diagonal _ v) fun r hr c hc => ?_
  rw [(h.2 c hc).2 r hr, Mat.get_diagonal v hr hc, hσ c hc]
  by_cases hrc : r = c
  · subst hrc
    rw [if_pos rfl, if_pos rfl, hw r hr]
  · rw [if_neg hrc, if_neg hrc]

/-- Matrices that act on the basis in the same way are the same. -/
theorem Mat.ActsOnBasis.ext {a b : Mat K} {n : ℕ} {σ τ : ℕ → ℕ} {w v : ℕ → K}
    (ha : a.ActsOnBasis n σ w) (hb : b.ActsOnBasis n τ v) (hσ : ∀ c < 2 ^ n, σ c = τ c)
    (hw : ∀ c < 2 ^ n, w c = v c) : a = b := by
  refine ha.1.ext hb.1 fun r hr c hc => ?_
  rw [(ha.2 c hc).2 r hr, (hb.2 c hc).2 r hr, hσ c hc, hw c hc]

/-- The same action, told by another map and other weights. -/
theorem Mat.ActsOnBasis.congr {m : Mat K} {n : ℕ} {σ τ : ℕ → ℕ} {w v : ℕ → K}
    (h : m.ActsOnBasis n σ w) (hσ : ∀ c < 2 ^ n, σ c = τ c) (hw : ∀ c < 2 ^ n, w c = v c) :
    m.ActsOnBasis n τ v := by
  refine ⟨h.1, fun c hc => ?_⟩
  rw [← hσ c hc, ← hw c hc]
  exact h.2 c hc

theorem Mat.actsOnBasis_diagonal (n : ℕ) (f : ℕ → K) :
    (Mat.diagonal (2 ^ n) f).ActsOnBasis n (fun c => c) f := by
  refine ⟨Mat.isSquare_diagonal _ f, fun c hc => ⟨hc, fun r hr => ?_⟩⟩
  rw [Mat.get_diagonal f hr hc]
  by_cases hrc : r = c
  · rw [if_pos hrc, if_pos hrc, hrc]
  · rw [if_neg hrc, if_neg hrc]

/-- To multiply by a diagonal matrix is to weigh the rows. -/
theorem Mat.get_diagonal_mul {n r c : ℕ} {f : ℕ → K} {u : Mat K} (hu : u.IsSquare n)
    (hr : r < n) (hc : c < n) : ((Mat.diagonal n f).mul u).get r c = f r * u.get r c := by
  rw [Mat.get_mul (Mat.isSquare_diagonal n f) hu hr hc, sum_eq_single r]
  · rw [Mat.get_diagonal f hr hr, if_pos rfl]
  · intro k hk hkr
    rw [Mat.get_diagonal f hr (mem_range.mp hk), if_neg (Ne.symm hkr), zero_mul]
  · intro h
    exact absurd (mem_range.mpr hr) h

/-- To multiply a matrix by a diagonal one is to weigh its columns. -/
theorem Mat.get_mul_diagonal {n r c : ℕ} {f : ℕ → K} {u : Mat K} (hu : u.IsSquare n)
    (hr : r < n) (hc : c < n) : (u.mul (Mat.diagonal n f)).get r c = u.get r c * f c := by
  rw [Mat.get_mul hu (Mat.isSquare_diagonal n f) hr hc, sum_eq_single c]
  · rw [Mat.get_diagonal f hc hc, if_pos rfl]
  · intro k hk hkc
    rw [Mat.get_diagonal f (mem_range.mp hk) hc, if_neg hkc, mul_zero]
  · intro h
    exact absurd (mem_range.mpr hc) h

theorem Mat.diagonal_mul_diagonal (n : ℕ) (f g : ℕ → K) :
    (Mat.diagonal (2 ^ n) f).mul (Mat.diagonal (2 ^ n) g) =
      Mat.diagonal (2 ^ n) fun r => f r * g r :=
  ((Mat.actsOnBasis_diagonal n f).mul (Mat.actsOnBasis_diagonal n g)).eq_diagonal
    (fun _ _ => rfl) fun _ _ => rfl

/-- A lifted gate acts on the listed bits and leaves the others. -/
theorem Mat.ActsOnBasis.lift {m : Mat K} {qs : List ℕ} {n : ℕ} {σ : ℕ → ℕ} {w : ℕ → K}
    (h : m.ActsOnBasis qs.length σ w) (hd : qs.Nodup) (hq : ∀ q ∈ qs, q < n) :
    (liftGate m qs n).ActsOnBasis n (fun c => replaceBits n qs (σ (packBits n qs c)) c)
      fun c => w (packBits n qs c) := by
  refine ⟨isSquare_liftGate m qs n, fun c hc => ⟨replaceBits_lt hq hc, fun r hr => ?_⟩⟩
  obtain ⟨hσ, hget⟩ := h.2 _ (packBits_lt n qs c)
  rw [get_liftGate_packed m hd hq hr hc, hget _ (packBits_lt n qs r)]
  by_cases hrow : r = replaceBits n qs (σ (packBits n qs c)) c
  · have hpack : packBits n qs r = σ (packBits n qs c) := by
      rw [hrow, packBits_replaceBits hd hq hσ]
    have hback : replaceBits n qs (packBits n qs c) r = c := by
      rw [hrow, replaceBits_replaceBits hd hq hc, replaceBits_packBits hd hq hc]
    rw [if_pos hback, if_pos hpack, if_pos hrow]
  · rw [if_neg hrow]
    split
    · rename_i hback
      rw [if_neg]
      intro hpack
      apply hrow
      rw [← hpack, ← hback, replaceBits_replaceBits hd hq hr, replaceBits_packBits hd hq hr]
    · rfl

/-- A lifted diagonal gate is diagonal. -/
theorem liftGate_diagonal {qs : List ℕ} {n : ℕ} (d : ℕ → K) (hd : qs.Nodup)
    (hq : ∀ q ∈ qs, q < n) :
    liftGate (Mat.diagonal (2 ^ qs.length) d) qs n =
      Mat.diagonal (2 ^ n) fun r => d (packBits n qs r) :=
  ((Mat.actsOnBasis_diagonal qs.length d).lift hd hq).eq_diagonal
    (fun _ hc => replaceBits_packBits hd hq hc) fun _ _ => rfl

/-- A gate that only weighs each row acts on the basis by these weights. -/
theorem actsOnBasis_of_weights {m : Mat K} {qs : List ℕ} {n : ℕ} {w : ℕ → K}
    (h : ∀ (f : ℕ → K), ∀ r < 2 ^ n, spreadRow m qs n f r = w r * f r) :
    (liftGate m qs n).ActsOnBasis n (fun c => c) w := by
  refine ⟨isSquare_liftGate m qs n, fun c hc => ⟨hc, fun r hr => ?_⟩⟩
  rw [get_liftGate hr hc, h _ r hr, mul_ite, mul_one, mul_zero]
  by_cases hrc : r = c
  · rw [hrc]
  · rw [if_neg hrc, if_neg hrc]

/-- A gate that reads each row at another index acts on the basis by the map back. -/
theorem actsOnBasis_of_moves {m : Mat K} {qs : List ℕ} {n : ℕ} {σ τ : ℕ → ℕ}
    (h : ∀ (f : ℕ → K), ∀ r < 2 ^ n, spreadRow m qs n f r = f (σ r))
    (hτ : ∀ c < 2 ^ n, τ c < 2 ^ n) (hστ : ∀ c < 2 ^ n, σ (τ c) = c)
    (hτσ : ∀ r < 2 ^ n, τ (σ r) = r) : (liftGate m qs n).ActsOnBasis n τ fun _ => 1 := by
  refine ⟨isSquare_liftGate m qs n, fun c hc => ⟨hτ c hc, fun r hr => ?_⟩⟩
  rw [get_liftGate hr hc, h _ r hr]
  by_cases hrc : σ r = c
  · rw [if_pos hrc, if_pos]
    rw [← hrc, hτσ r hr]
  · rw [if_neg hrc, if_neg]
    intro heq
    exact hrc (heq ▸ hστ c hc)

end

end QuantumGates
