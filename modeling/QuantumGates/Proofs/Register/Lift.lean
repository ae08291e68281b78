-- The laws of lifted matrices. A row of a lifted matrix is a row of the gate spread over the
-- indices that differ in the listed bits, so lifting keeps the identity and products, and to
-- lift twice is to lift once to the qubits that the inner ones stand for. The entries may come
-- from any semiring.
import Mathlib.Algebra.BigOperators.Fin
import Mathlib.Algebra.BigOperators.Ring.Finset
import QuantumGates.Proofs.Register.Bits

namespace QuantumGates

open Finset

/-! ## Entries -/

theorem sumBelow_eq_sum {K : Type} [AddCommMonoid K] (n : ℕ) (f : ℕ → K) :
    sumBelow n f = ∑ k ∈ range n, f k := by
  unfold sumBelow
  induction n with
  | zero => rfl
  | succ n ih => rw [Nat.fold_succ, ih, sum_range_succ]

namespace Mat

/-- A square matrix of `n` rows. -/
def IsSquare {K : Type} (m : Mat K) (n : ℕ) : Prop := m.rows = n ∧ m.cols = n

instance {K : Type} (m : Mat K) (n : ℕ) : Decidable (m.IsSquare n) :=
  inferInstanceAs (Decidable (_ ∧ _))

section

variable {K : Type} [Zero K]

/-- Matrices of the same size with the same entries are the same. -/
theorem ext_get {a b : Mat K} (hr : a.rows = b.rows) (hc : a.cols = b.cols)
    (h : ∀ r < a.rows, ∀ c < a.cols, a.get r c = b.get r c) : a = b := by
  obtain ⟨m, n, as, ha⟩ := a
  obtain ⟨m', n', bs, hb⟩ := b
  simp only at hr hc ha hb h
  subst hr hc
  have : as = bs := by
    refine Array.ext (by rw [ha, hb]) fun k hk hk' => ?_
    have hn : 0 < n := by
      rcases Nat.eq_zero_or_pos n with h0 | h0
      · subst h0
        omega
      · exact h0
    have hkn : k / n < m := by
      rw [Nat.div_lt_iff_lt_mul hn]
      omega
    have hget := h (k / n) hkn (k % n) (Nat.mod_lt _ hn)
    unfold get at hget
    rw [if_pos (Nat.mod_lt _ hn), if_pos (Nat.mod_lt _ hn), Nat.div_add_mod' k n] at hget
    simpa [hk, hk'] using hget
  subst this
  rfl

theorem IsSquare.ext {n : ℕ} {a b : Mat K} (ha : a.IsSquare n) (hb : b.IsSquare n)
    (h : ∀ r < n, ∀ c < n, a.get r c = b.get r c) : a = b := by
  refine ext_get (ha.1.trans hb.1.symm) (ha.2.trans hb.2.symm) fun r hr c hc => h r ?_ c ?_
  · exact ha.1 ▸ hr
  · exact ha.2 ▸ hc

end

section

variable {K : Type} [Semiring K]

theorem isSquare_identity (n : ℕ) : (identity n : Mat K).IsSquare n := ⟨rfl, rfl⟩

theorem IsSquare.mul {n : ℕ} {a b : Mat K} (ha : a.IsSquare n) (hb : b.IsSquare n) :
    (a.mul b).IsSquare n := ⟨ha.1, hb.2⟩

theorem isSquare_diagonal (n : ℕ) (f : ℕ → K) : (diagonal n f).IsSquare n := ⟨rfl, rfl⟩

theorem get_identity {n r c : ℕ} (hr : r < n) (hc : c < n) :
    (identity n : Mat K).get r c = if r = c then 1 else 0 := get_ofFn _ hr hc

theorem get_diagonal {n r c : ℕ} (f : ℕ → K) (hr : r < n) (hc : c < n) :
    (diagonal n f).get r c = if r = c then f r else 0 := get_ofFn _ hr hc

theorem get_mul {n r c : ℕ} {a b : Mat K} (ha : a.IsSquare n) (hb : b.IsSquare n) (hr : r < n)
    (hc : c < n) : (a.mul b).get r c = ∑ k ∈ range n, a.get r k * b.get k c := by
  unfold mul
  rw [get_ofFn _ (by rwa [ha.1]) (by rwa [hb.2]), sumBelow_eq_sum, ha.2]

theorem identity_mul {n : ℕ} {a : Mat K} (ha : a.IsSquare n) : (identity n).mul a = a := by
  refine ((isSquare_identity n).mul ha).ext ha fun r hr c hc => ?_
  rw [get_mul (isSquare_identity n) ha hr hc, sum_eq_single r]
  · rw [get_identity hr hr, if_pos rfl, one_mul]
  · intro k hk hkr
    rw [get_identity hr (mem_range.mp hk), if_neg (Ne.symm hkr), zero_mul]
  · intro h
    exact absurd (mem_range.mpr hr) h

theorem mul_identity {n : ℕ} {a : Mat K} (ha : a.IsSquare n) : a.mul (identity n) = a := by
  refine (ha.mul (isSquare_identity n)).ext ha fun r hr c hc => ?_
  rw [get_mul ha (isSquare_identity n) hr hc, sum_eq_single c]
  · rw [get_identity hc hc, if_pos rfl, mul_one]
  · intro k hk hkc
    rw [get_identity (mem_range.mp hk) hc, if_neg hkc, mul_zero]
  · intro h
    exact absurd (mem_range.mpr hc) h

theorem assoc_of_isSquare {n : ℕ} {a b c : Mat K} (ha : a.IsSquare n) (hb : b.IsSquare n)
    (hc : c.IsSquare n) : (a.mul b).mul c = a.mul (b.mul c) := by
  refine ((ha.mul hb).mul hc).ext (ha.mul (hb.mul hc)) fun r hr s hs => ?_
  rw [get_mul (ha.mul hb) hc hr hs, get_mul ha (hb.mul hc) hr hs]
  calc ∑ k ∈ range n, (a.mul b).get r k * c.get k s
      = ∑ k ∈ range n, ∑ j ∈ range n, a.get r j * b.get j k * c.get k s := by
        refine sum_congr rfl fun k hk => ?_
        rw [get_mul ha hb hr (mem_range.mp hk), sum_mul]
    _ = ∑ j ∈ range n, ∑ k ∈ range n, a.get r j * b.get j k * c.get k s := sum_comm
    _ = ∑ j ∈ range n, a.get r j * (b.mul c).get j s := by
        refine sum_congr rfl fun j hj => ?_
        rw [get_mul hb hc (mem_range.mp hj) hs, mul_sum]
        exact sum_congr rfl fun k _ => mul_assoc _ _ _

end

end Mat

/-! ## Lifted matrices -/

section

variable {K : Type} [Semiring K]

theorem isSquare_liftGate (m : Mat K) (qs : List ℕ) (n : ℕ) :
    (liftGate m qs n).IsSquare (2 ^ n) := ⟨Nat.pow_eq, Nat.pow_eq⟩

/-- A row of a gate spread over the indices that differ from `r` in the listed bits only. -/
def spreadRow (m : Mat K) (qs : List ℕ) (n : ℕ) (f : ℕ → K) (r : ℕ) : K :=
  ∑ j ∈ range (2 ^ qs.length), m.get (packBits n qs r) j * f (replaceBits n qs j r)

theorem get_liftGate {m : Mat K} {qs : List ℕ} {n r c : ℕ} (hr : r < 2 ^ n) (hc : c < 2 ^ n) :
    (liftGate m qs n).get r c = spreadRow m qs n (fun s => if s = c then 1 else 0) r := by
  unfold liftGate spreadRow
  rw [Mat.get_ofFn _ (by rwa [Nat.pow_eq]) (by rwa [Nat.pow_eq]), sumBelow_eq_sum, Nat.pow_eq]
  rfl

/-- An entry of a lifted matrix is that of the gate at the listed bits, and nought where row and
column differ in another bit. -/
theorem get_liftGate_packed (m : Mat K) {qs : List ℕ} {n r c : ℕ} (hd : qs.Nodup)
    (hq : ∀ q ∈ qs, q < n) (hr : r < 2 ^ n) (hc : c < 2 ^ n) :
    (liftGate m qs n).get r c =
      if replaceBits n qs (packBits n qs c) r = c then m.get (packBits n qs r) (packBits n qs c)
      else 0 := by
  rw [get_liftGate hr hc]
  unfold spreadRow
  rw [sum_eq_single (packBits n qs c)]
  · rw [mul_ite, mul_one, mul_zero]
  · intro j hj hne
    beta_reduce
    rw [if_neg, mul_zero]
    intro hrow
    apply hne
    rw [← hrow, packBits_replaceBits hd hq (mem_range.mp hj)]
  · intro hmem
    exact absurd (mem_range.mpr (packBits_lt n qs c)) hmem

/-- To multiply by a lifted matrix is to spread the rows of the gate. -/
theorem get_liftGate_mul {m u : Mat K} {qs : List ℕ} {n r c : ℕ} (hq : ∀ q ∈ qs, q < n)
    (hu : u.IsSquare (2 ^ n)) (hr : r < 2 ^ n) (hc : c < 2 ^ n) :
    ((liftGate m qs n).mul u).get r c = spreadRow m qs n (fun s => u.get s c) r := by
  rw [Mat.get_mul (isSquare_liftGate m qs n) hu hr hc]
  calc ∑ k ∈ range (2 ^ n), (liftGate m qs n).get r k * u.get k c
      = ∑ k ∈ range (2 ^ n), ∑ j ∈ range (2 ^ qs.length),
          m.get (packBits n qs r) j * (if replaceBits n qs j r = k then u.get k c else 0) := by
        refine sum_congr rfl fun k hk => ?_
        rw [get_liftGate hr (mem_range.mp hk), spreadRow, sum_mul]
        refine sum_congr rfl fun j _ => ?_
        rw [mul_assoc, ite_mul, one_mul, zero_mul]
    _ = ∑ j ∈ range (2 ^ qs.length), ∑ k ∈ range (2 ^ n),
          m.get (packBits n qs r) j * (if replaceBits n qs j r = k then u.get k c else 0) :=
        sum_comm
    _ = spreadRow m qs n (fun s => u.get s c) r := by
        refine sum_congr rfl fun j _ => ?_
        rw [← mul_sum, sum_ite_eq, if_pos (mem_range.mpr (replaceBits_lt hq hr))]

theorem spreadRow_congr {m : Mat K} {qs : List ℕ} {n r : ℕ} {f g : ℕ → K}
    (hq : ∀ q ∈ qs, q < n) (hr : r < 2 ^ n) (h : ∀ s < 2 ^ n, f s = g s) :
    spreadRow m qs n f r = spreadRow m qs n g r := by
  unfold spreadRow
  refine sum_congr rfl fun j _ => ?_
  rw [h _ (replaceBits_lt hq hr)]

/-- To spread a row of the identity is to read the function. -/
theorem spreadRow_identity {qs : List ℕ} {n r : ℕ} (f : ℕ → K) (hd : qs.Nodup)
    (hq : ∀ q ∈ qs, q < n) (hr : r < 2 ^ n) :
    spreadRow (Mat.identity (2 ^ qs.length)) qs n f r = f r := by
  have hp := packBits_lt n qs r
  unfold spreadRow
  rw [sum_eq_single (packBits n qs r)]
  · rw [Mat.get_identity hp hp, if_pos rfl, one_mul, replaceBits_packBits hd hq hr]
  · intro j hj hne
    rw [Mat.get_identity hp (mem_range.mp hj), if_neg (Ne.symm hne), zero_mul]
  · intro h
    exact absurd (mem_range.mpr hp) h

theorem liftGate_identity {qs : List ℕ} {n : ℕ} (hd : qs.Nodup) (hq : ∀ q ∈ qs, q < n) :
    liftGate (Mat.identity (2 ^ qs.length) : Mat K) qs n = Mat.identity (2 ^ n) := by
  refine (isSquare_liftGate _ qs n).ext (Mat.isSquare_identity _) fun r hr c hc => ?_
  rw [get_liftGate hr hc, spreadRow_identity _ hd hq hr, Mat.get_identity hr hc]

/-- To spread a row of a product is to spread the rows of the factors one after another. -/
theorem spreadRow_mul {a b : Mat K} {qs : List ℕ} {n r : ℕ} (f : ℕ → K) (hd : qs.Nodup)
    (hq : ∀ q ∈ qs, q < n) (ha : a.IsSquare (2 ^ qs.length)) (hb : b.IsSquare (2 ^ qs.length))
    (hr : r < 2 ^ n) :
    spreadRow (a.mul b) qs n f r = spreadRow a qs n (spreadRow b qs n f) r := by
  have hp := packBits_lt n qs r
  unfold spreadRow
  calc ∑ j ∈ range (2 ^ qs.length), (a.mul b).get (packBits n qs r) j * f (replaceBits n qs j r)
      = ∑ j ∈ range (2 ^ qs.length), ∑ i ∈ range (2 ^ qs.length),
          a.get (packBits n qs r) i * (b.get i j * f (replaceBits n qs j r)) := by
        refine sum_congr rfl fun j hj => ?_
        rw [Mat.get_mul ha hb hp (mem_range.mp hj), sum_mul]
        exact sum_congr rfl fun i _ => mul_assoc _ _ _
    _ = ∑ i ∈ range (2 ^ qs.length), ∑ j ∈ range (2 ^ qs.length),
          a.get (packBits n qs r) i * (b.get i j * f (replaceBits n qs j r)) := sum_comm
    _ = _ := by
        refine sum_congr rfl fun i hi => ?_
        rw [← mul_sum, packBits_replaceBits hd hq (mem_range.mp hi)]
        simp only [replaceBits_replaceBits hd hq hr]

theorem liftGate_mul {a b : Mat K} {qs : List ℕ} {n : ℕ} (hd : qs.Nodup) (hq : ∀ q ∈ qs, q < n)
    (ha : a.IsSquare (2 ^ qs.length)) (hb : b.IsSquare (2 ^ qs.length)) :
    liftGate (a.mul b) qs n = (liftGate a qs n).mul (liftGate b qs n) := by
  refine (isSquare_liftGate _ qs n).ext
    ((isSquare_liftGate a qs n).mul (isSquare_liftGate b qs n)) fun r hr c hc => ?_
  rw [get_liftGate hr hc, get_liftGate_mul hq (isSquare_liftGate b qs n) hr hc,
    spreadRow_mul _ hd hq ha hb hr]
  exact spreadRow_congr hq hr fun s hs => (get_liftGate hs hc).symm

/-! ## Lifting twice -/

/-- The qubits of a register that the qubits of a smaller one stand for. -/
def placed (qs ps : List ℕ) : List ℕ := ps.map fun p => qs[p]?.getD 0

@[simp] theorem length_placed (qs ps : List ℕ) : (placed qs ps).length = ps.length := by
  simp [placed]

theorem placed_lt {qs ps : List ℕ} {n : ℕ} (hq : ∀ q ∈ qs, q < n)
    (hp : ∀ p ∈ ps, p < qs.length) : ∀ q ∈ placed qs ps, q < n := by
  intro q hmem
  obtain ⟨p, hps, rfl⟩ := List.mem_map.mp hmem
  have hlt := hp p hps
  rw [List.getElem?_eq_getElem hlt, Option.getD_some]
  exact hq _ (List.getElem_mem hlt)

theorem nodup_placed {qs ps : List ℕ} (hd : qs.Nodup) (hps : ps.Nodup)
    (hp : ∀ p ∈ ps, p < qs.length) : (placed qs ps).Nodup := by
  refine List.Nodup.map_on (fun i hi j hj heq => ?_) hps
  rw [List.getElem?_eq_getElem (hp i hi), List.getElem?_eq_getElem (hp j hj)] at heq
  exact (hd.getElem_inj_iff).mp heq

/-- The bits of the inner qubits are bits of the register. -/
theorem packBits_packBits {qs ps : List ℕ} (n r : ℕ) (hp : ∀ p ∈ ps, p < qs.length) :
    packBits qs.length ps (packBits n qs r) = packBits n (placed qs ps) r := by
  induction ps with
  | nil => rfl
  | cons p ps ih =>
    have hlt := hp p (by simp)
    have hplaced : placed qs (p :: ps) = qs[p] :: placed qs ps := by
      simp [placed, List.getElem?_eq_getElem hlt]
    rw [hplaced, packBits_cons, packBits_cons, bitAt_packBits n qs r hlt, length_placed,
      ih fun q hq => hp q (by simp [hq])]

/-- To replace inner bits and put the result back is to replace the bits of the register. -/
theorem replaceBits_packed {qs ps : List ℕ} {n j r : ℕ} (hd : qs.Nodup) (hq : ∀ q ∈ qs, q < n)
    (hps : ps.Nodup) (hp : ∀ p ∈ ps, p < qs.length) (hr : r < 2 ^ n) :
    replaceBits n qs (replaceBits qs.length ps j (packBits n qs r)) r =
      replaceBits n (placed qs ps) j r := by
  have hpq := placed_lt hq hp
  have hdp := nodup_placed hd hps hp
  refine eq_of_listed_bits qs (replaceBits_lt hq hr) (replaceBits_lt hpq hr)
    (fun i hi => ?_) fun q hqn hmem => ?_
  · rw [bitAt_replaceBits hd hq hi]
    by_cases hips : i ∈ ps
    · obtain ⟨k, hk, rfl⟩ := List.getElem_of_mem hips
      have hk' : k < (placed qs ps).length := by simpa using hk
      have hget : (placed qs ps)[k] = qs[ps[k]] := by
        simp [placed, List.getElem?_eq_getElem (hp _ hips)]
      rw [bitAt_replaceBits hps hp hk, ← hget, bitAt_replaceBits hdp hpq hk', length_placed]
    · have hnot : qs[i] ∉ placed qs ps := by
        intro hmem
        obtain ⟨p, hpm, hpe⟩ := List.mem_map.mp hmem
        rw [List.getElem?_eq_getElem (hp p hpm), Option.getD_some] at hpe
        exact hips (hd.getElem_inj_iff.mp hpe ▸ hpm)
      rw [bitAt_replaceBits_of_notMem hp hi hips, bitAt_packBits n qs r hi,
        bitAt_replaceBits_of_notMem hpq (hq _ (List.getElem_mem hi)) hnot]
  · have hnot : q ∉ placed qs ps := by
      intro hmem'
      obtain ⟨p, hpm, hpe⟩ := List.mem_map.mp hmem'
      rw [List.getElem?_eq_getElem (hp p hpm), Option.getD_some] at hpe
      exact hmem (hpe ▸ List.getElem_mem _)
    rw [bitAt_replaceBits_of_notMem hq hqn hmem, bitAt_replaceBits_of_notMem hpq hqn hnot]

/-- A gate lifted to a small register and from there to a large one is lifted to the qubits
of the large one. -/
theorem liftGate_liftGate {m : Mat K} {qs ps : List ℕ} {n : ℕ} (hd : qs.Nodup)
    (hq : ∀ q ∈ qs, q < n) (hps : ps.Nodup) (hp : ∀ p ∈ ps, p < qs.length) :
    liftGate (liftGate m ps qs.length) qs n = liftGate m (placed qs ps) n := by
  refine (isSquare_liftGate _ qs n).ext (isSquare_liftGate _ _ n) fun r hr c hc => ?_
  have hpack := packBits_lt n qs r
  rw [get_liftGate hr hc, get_liftGate hr hc]
  unfold spreadRow
  calc ∑ j ∈ range (2 ^ qs.length), (liftGate m ps qs.length).get (packBits n qs r) j *
        (if replaceBits n qs j r = c then 1 else 0)
      = ∑ j ∈ range (2 ^ qs.length), ∑ i ∈ range (2 ^ ps.length),
          m.get (packBits qs.length ps (packBits n qs r)) i *
            (if replaceBits qs.length ps i (packBits n qs r) = j then
              (if replaceBits n qs j r = c then 1 else 0) else 0) := by
        refine sum_congr rfl fun j hj => ?_
        rw [get_liftGate hpack (mem_range.mp hj), spreadRow, sum_mul]
        refine sum_congr rfl fun i _ => ?_
        rw [mul_assoc, ite_mul, one_mul, zero_mul]
    _ = ∑ i ∈ range (2 ^ ps.length), ∑ j ∈ range (2 ^ qs.length),
          m.get (packBits qs.length ps (packBits n qs r)) i *
            (if replaceBits qs.length ps i (packBits n qs r) = j then
              (if replaceBits n qs j r = c then 1 else 0) else 0) := sum_comm
    _ = _ := by
        rw [length_placed]
        refine sum_congr rfl fun i _ => ?_
        rw [← mul_sum, sum_ite_eq, if_pos (mem_range.mpr (replaceBits_lt hp hpack)),
          packBits_packBits n r hp, replaceBits_packed hd hq hps hp hr]

end

end QuantumGates
