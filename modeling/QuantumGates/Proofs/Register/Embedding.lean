-- The placement of a gate as a map of matrices. An entry of the placed matrix is the entry of the
-- gate at the bits of the listed qubits, the first listed the most significant, and nought where
-- row and column differ in another bit. So every matrix of a gate can be read off its placed form,
-- and the placed form of the identity, of a sum and of a product is the identity, the sum and the
-- product of the placed forms.
import QuantumGates.Proofs.Register.Axes

namespace QuantumGates

open Finset

/-! ## The listed bits as a sum -/

/-- The number with the bits of `r` at the listed qubits, the first the most significant. Qubit 0 of
`n` is the most significant bit of `r`. -/
def listedBits (n : ℕ) (qs : List ℕ) (r : ℕ) : ℕ :=
  ∑ i : Fin qs.length, 2 ^ (qs.length - 1 - i) * (r.testBit (n - 1 - qs[i])).toNat

theorem packBits_eq_listedBits (n : ℕ) (qs : List ℕ) (r : ℕ) :
    packBits n qs r = listedBits n qs r := by
  induction qs with
  | nil => rfl
  | cons q qs ih =>
    have htail (i : Fin qs.length) : qs.length - (i.val + 1) = qs.length - 1 - i := by omega
    unfold listedBits at ih ⊢
    simp only [packBits_cons, ih, bitAt_eq_testBit, List.length_cons, Fin.sum_univ_succ,
      Fin.val_zero, Fin.val_succ, htail, Fin.getElem_fin, List.getElem_cons_zero,
      List.getElem_cons_succ, Nat.add_sub_cancel, Nat.sub_zero]

/-! ## Sums of matrices -/

namespace Mat

variable {K : Type} [Semiring K] {n : ℕ} {a b : Mat K}

/-- The matrix of the sums of entries. -/
def add (a b : Mat K) : Mat K := ofFn a.rows a.cols fun r c => a.get r c + b.get r c

theorem IsSquare.add (ha : a.IsSquare n) : (a.add b).IsSquare n := ha

theorem get_add (ha : a.IsSquare n) {r c : ℕ} (hr : r < n) (hc : c < n) :
    (a.add b).get r c = a.get r c + b.get r c :=
  get_ofFn _ (by rwa [ha.1]) (by rwa [ha.2])

end Mat

/-! ## Placed matrices -/

section

variable {K : Type} [Semiring K] {a b m : Mat K} {qs : List ℕ} {n : ℕ}

/-- The entries of a placed matrix, by the bits of row and column. -/
theorem get_liftGate_listed (m : Mat K) (hd : qs.Nodup) (hq : ∀ q ∈ qs, q < n) {r c : ℕ}
    (hr : r < 2 ^ n) (hc : c < 2 ^ n) :
    (liftGate m qs n).get r c =
      if ∀ q < n, q ∉ qs → r.testBit (n - 1 - q) = c.testBit (n - 1 - q) then
        m.get (listedBits n qs r) (listedBits n qs c)
      else 0 := by
  rw [get_liftGate_packed m hd hq hr hc, packBits_eq_listedBits]
  refine if_congr ?_ (by rw [packBits_eq_listedBits]) rfl
  have htoNat (x y : Bool) : x.toNat = y.toNat ↔ x = y := by cases x <;> cases y <;> decide
  rw [← packBits_eq_listedBits, replaceBits_packBits_eq_iff hd hq hr hc]
  simp only [bitAt_eq_testBit, htoNat]

/-- Each entry of a gate stands in its placed matrix, at the indices whose other bits are nought. -/
theorem get_liftGate_replaced (m : Mat K) (hd : qs.Nodup) (hq : ∀ q ∈ qs, q < n) {i j : ℕ}
    (hi : i < 2 ^ qs.length) (hj : j < 2 ^ qs.length) :
    (liftGate m qs n).get (replaceBits n qs i 0) (replaceBits n qs j 0) = m.get i j := by
  have hzero : 0 < 2 ^ n := Nat.two_pow_pos n
  rw [get_liftGate_packed m hd hq (replaceBits_lt hq hzero) (replaceBits_lt hq hzero),
    packBits_replaceBits hd hq hi, packBits_replaceBits hd hq hj,
    replaceBits_replaceBits hd hq hzero, if_pos rfl]

theorem liftGate_injective (hd : qs.Nodup) (hq : ∀ q ∈ qs, q < n)
    (ha : a.IsSquare (2 ^ qs.length)) (hb : b.IsSquare (2 ^ qs.length))
    (h : liftGate a qs n = liftGate b qs n) : a = b := by
  refine ha.ext hb fun i hi j hj => ?_
  rw [← get_liftGate_replaced a hd hq hi hj, h, get_liftGate_replaced b hd hq hi hj]

theorem liftGate_add (hd : qs.Nodup) (hq : ∀ q ∈ qs, q < n) (ha : a.IsSquare (2 ^ qs.length)) :
    liftGate (a.add b) qs n = (liftGate a qs n).add (liftGate b qs n) := by
  have hsquare := isSquare_liftGate a qs n
  refine (isSquare_liftGate _ qs n).ext hsquare.add fun r hr c hc => ?_
  rw [Mat.get_add hsquare hr hc, get_liftGate_packed _ hd hq hr hc,
    get_liftGate_packed a hd hq hr hc, get_liftGate_packed b hd hq hr hc,
    Mat.get_add ha (packBits_lt n qs r) (packBits_lt n qs c)]
  split
  · rfl
  · rw [add_zero]

variable {R : Type}

/-- The numbers of distinct qubits are indices of these qubits. -/
theorem embedAt_natCast (hm : m.IsSquare (2 ^ qs.length)) (hd : qs.Nodup)
    (hq : ∀ q ∈ qs, q < n) :
    (embedAt m (qs.map Int.ofNat) n : Except (Fault R) (Mat K)) = .ok (liftGate m qs n) := by
  have hlow : ∀ i ∈ qs.map Int.ofNat, 0 ≤ i := by simp
  have hdistinct : Axis.AreDistinct (qs.map Int.ofNat) n := by
    rw [Axis.areDistinct_iff_of_nonneg hlow, List.nodup_map_iff Int.ofNat_injective]
    exact ⟨hd, by simpa using hq⟩
  have hlength : m.IsSquare (2 ^ (qs.map Int.ofNat).length) := by rwa [List.length_map]
  have hok : (embedAt m (qs.map Int.ofNat) n : Except (Fault R) (Mat K)) = .ok _ :=
    embedAt_eq_ok_iff.mpr ⟨⟨hlength, hdistinct⟩, rfl⟩
  have hqubits : (qs.map Int.ofNat).map Int.toNat = qs := by
    rw [List.map_map]
    exact List.map_id qs
  rw [hok, eq_liftGate_of_embedAt hlow hok, hqubits]

/-- What placing matrices on distinct qubits of a register does. Every matrix that fits them is
placed, entry by entry by the listed bits of row and column, and can be read off the placed matrix;
the identity, sums and products of matrices are those of the placed ones. -/
theorem embedding_of_matrices (hd : qs.Nodup) (hq : ∀ q ∈ qs, q < n) :
    (∀ m : Mat K, m.IsSquare (2 ^ qs.length) →
      (embedAt m (qs.map Int.ofNat) n : Except (Fault R) (Mat K)) = .ok (liftGate m qs n) ∧
      (embed m qs n : Except (Fault R) (Mat K)) = .ok (liftGate m qs n) ∧
      (liftGate m qs n).IsSquare (2 ^ n) ∧
      ∀ r < 2 ^ n, ∀ c < 2 ^ n, (liftGate m qs n).get r c =
        if ∀ q < n, q ∉ qs → r.testBit (n - 1 - q) = c.testBit (n - 1 - q) then
          m.get (listedBits n qs r) (listedBits n qs c)
        else 0) ∧
    (∀ a b : Mat K, a.IsSquare (2 ^ qs.length) → b.IsSquare (2 ^ qs.length) →
      (liftGate a qs n = liftGate b qs n → a = b) ∧
      liftGate (a.add b) qs n = (liftGate a qs n).add (liftGate b qs n) ∧
      liftGate (a.mul b) qs n = (liftGate a qs n).mul (liftGate b qs n)) ∧
    liftGate (Mat.identity (2 ^ qs.length) : Mat K) qs n = Mat.identity (2 ^ n) := by
  refine ⟨fun m hm => ?_, fun a b ha hb => ?_, liftGate_identity hd hq⟩
  · refine ⟨embedAt_natCast hm hd hq, embed_eq_ok hm hd hq, isSquare_liftGate m qs n, ?_⟩
    exact fun r hr c hc => get_liftGate_listed m hd hq hr hc
  · exact ⟨liftGate_injective hd hq ha hb, liftGate_add hd hq ha, liftGate_mul hd hq ha hb⟩

/-- With a gate on the qubits 2 and 0 of a register of three, the entry in row 001 and column 101
is that in row 10 and column 11 of the gate. -/
theorem embedding_on_last_and_first :
    let m : Mat ℤ := Mat.ofFn 4 4 fun r c => 4 * r + c
    (embedAt m [2, 0] 3 : Except (Fault ℚ) (Mat ℤ)) = .ok (liftGate m [2, 0] 3) ∧
      (liftGate m [2, 0] 3).get 1 5 = m.get 2 3 := by
  intro m
  obtain ⟨hplaced, -⟩ := embedding_of_matrices (K := ℤ) (R := ℚ) (n := 3)
    (by decide : [2, 0].Nodup) (by decide)
  obtain ⟨hembed, -, -, hentries⟩ := hplaced m ⟨rfl, rfl⟩
  refine ⟨hembed, (hentries 1 (by decide) 5 (by decide)).trans ?_⟩
  decide

end

end QuantumGates
