-- Matrices that read one entry in each row. A gate that only moves basis states has such a matrix,
-- and so have the products and the lifts of such gates. Nothing is asked of the numbers but the
-- sums and products of nought and one, which doubles have as well as real numbers, so that these
-- matrices are exact in either.
import QuantumGates.Proofs.Exact.Numbers
import QuantumGates.Proofs.Register.Lift

namespace QuantumGates

/-! ## Nought and one -/

/-- Nought and one add up and multiply as they do in a ring. Of two ones no sum is asked. -/
class BinaryArithmetic (K : Type) [Zero K] [One K] [Add K] [Mul K] : Prop where
  zero_add_zero : (0 : K) + 0 = 0
  zero_add_one : (0 : K) + 1 = 1
  one_add_zero : (1 : K) + 0 = 1
  zero_mul_zero : (0 : K) * 0 = 0
  zero_mul_one : (0 : K) * 1 = 0
  one_mul_zero : (1 : K) * 0 = 0
  one_mul_one : (1 : K) * 1 = 1

/-- The same for numbers that gates are computed in, with what a complex product subtracts. -/
class BinaryScalar (R : Type) [Scalar R] : Prop extends BinaryArithmetic R where
  zero_sub_zero : (0 : R) - 0 = 0
  one_sub_zero : (1 : R) - 0 = 1

attribute [simp] BinaryArithmetic.zero_add_zero BinaryArithmetic.zero_add_one
  BinaryArithmetic.one_add_zero BinaryArithmetic.zero_mul_zero BinaryArithmetic.zero_mul_one
  BinaryArithmetic.one_mul_zero BinaryArithmetic.one_mul_one BinaryScalar.zero_sub_zero
  BinaryScalar.one_sub_zero

instance {R : Type} [Scalar R] [BinaryScalar R] : BinaryArithmetic (Cplx R) where
  zero_add_zero := by ext <;> simp
  zero_add_one := by ext <;> simp
  one_add_zero := by ext <;> simp
  zero_mul_zero := by ext <;> simp
  zero_mul_one := by ext <;> simp
  one_mul_zero := by ext <;> simp
  one_mul_one := by ext <;> simp

instance : BinaryScalar Float where
  zero_add_zero := by decide +kernel
  zero_add_one := by decide +kernel
  one_add_zero := by decide +kernel
  zero_mul_zero := by decide +kernel
  zero_mul_one := by decide +kernel
  one_mul_zero := by decide +kernel
  one_mul_one := by decide +kernel
  zero_sub_zero := by decide +kernel
  one_sub_zero := by decide +kernel

instance : BinaryScalar ℝ where
  zero_add_zero := add_zero 0
  zero_add_one := zero_add 1
  one_add_zero := add_zero 1
  zero_mul_zero := mul_zero 0
  zero_mul_one := mul_one 0
  one_mul_zero := mul_zero 1
  one_mul_one := mul_one 1
  zero_sub_zero := sub_zero 0
  one_sub_zero := sub_zero 1

/-! ## Matrices that read one entry -/

namespace Mat

section

variable {K : Type} [Zero K] [One K] {a b m : Mat K} {n : ℕ} {σ τ : ℕ → ℕ}

theorem unitEntry_cases (r c : ℕ) : (unitEntry r c : K) = 0 ∨ (unitEntry r c : K) = 1 := by
  unfold unitEntry
  split
  · exact .inr rfl
  · exact .inl rfl

/-- Row `r` of the matrix is row `σ r` of the identity: what it is multiplied with is read there. -/
structure Reads (m : Mat K) (n : ℕ) (σ : ℕ → ℕ) : Prop where
  isSquare : m.IsSquare n
  lt : ∀ r < n, σ r < n
  get_eq : ∀ r < n, ∀ c < n, m.get r c = unitEntry (σ r) c

theorem reads_identity (n : ℕ) : (identity n : Mat K).Reads n fun r => r where
  isSquare := ⟨rfl, rfl⟩
  lt _ hr := hr
  get_eq _ hr _ hc := get_ofFn _ hr hc

/-- Matrices that read the same entries are the same. -/
theorem Reads.ext (ha : a.Reads n σ) (hb : b.Reads n τ) (h : ∀ r < n, σ r = τ r) : a = b :=
  ha.isSquare.ext hb.isSquare fun r hr c hc => by
    rw [ha.get_eq r hr c hc, hb.get_eq r hr c hc, h r hr]

theorem Reads.congr (hm : m.Reads n σ) (h : ∀ r < n, σ r = τ r) : m.Reads n τ where
  isSquare := hm.isSquare
  lt r hr := h r hr ▸ hm.lt r hr
  get_eq r hr c hc := h r hr ▸ hm.get_eq r hr c hc

end

end Mat

/-! ## Sums of one term -/

section

variable {K : Type} [Zero K] [Add K]

theorem sumBelow_succ (n : ℕ) (f : ℕ → K) : sumBelow (n + 1) f = sumBelow n f + f n :=
  Nat.fold_succ ..

theorem sumBelow_congr {n : ℕ} {f g : ℕ → K} (h : ∀ k < n, f k = g k) :
    sumBelow n f = sumBelow n g := by
  induction n with
  | zero => rfl
  | succ n ih =>
    rw [sumBelow_succ, sumBelow_succ, ih fun k hk => h k (by omega), h n (by omega)]

variable [One K] [Mul K] [BinaryArithmetic K]

theorem sumBelow_eq_zero {n : ℕ} {f : ℕ → K} (h : ∀ k < n, f k = 0) : sumBelow n f = 0 := by
  induction n with
  | zero => rfl
  | succ n ih =>
    rw [sumBelow_succ, ih fun k hk => h k (by omega), h n (by omega),
      BinaryArithmetic.zero_add_zero]

/-- A sum of noughts but for one term is this term, if it is nought or one. -/
theorem sumBelow_eq_single {n j : ℕ} {f : ℕ → K} (hj : j < n) (hbit : f j = 0 ∨ f j = 1)
    (h : ∀ k < n, k ≠ j → f k = 0) : sumBelow n f = f j := by
  induction n with
  | zero => omega
  | succ n ih =>
    rw [sumBelow_succ]
    rcases Nat.lt_succ_iff_lt_or_eq.mp hj with hlt | rfl
    · rw [ih hlt fun k hk => h k (by omega), h n (by omega) (by omega)]
      rcases hbit with h0 | h1
      · rw [h0, BinaryArithmetic.zero_add_zero]
      · rw [h1, BinaryArithmetic.one_add_zero]
    · rw [sumBelow_eq_zero fun k hk => h k (by omega) (by omega)]
      rcases hbit with h0 | h1
      · rw [h0, BinaryArithmetic.zero_add_zero]
      · rw [h1, BinaryArithmetic.zero_add_one]

/-- A row of the identity picks one of the entries that it is multiplied with. -/
theorem sumBelow_unitEntry {n a c : ℕ} (g : ℕ → ℕ) (ha : a < n) :
    sumBelow n (fun k => (Mat.unitEntry a k * Mat.unitEntry (g k) c : K)) =
      Mat.unitEntry (g a) c := by
  have hterm : (Mat.unitEntry a a * Mat.unitEntry (g a) c : K) = Mat.unitEntry (g a) c := by
    have hone : (Mat.unitEntry a a : K) = 1 := if_pos rfl
    rcases Mat.unitEntry_cases (K := K) (g a) c with h | h <;> simp [hone, h]
  rw [sumBelow_eq_single ha, hterm]
  · rw [hterm]
    exact Mat.unitEntry_cases _ _
  · intro k _ hne
    have hzero : (Mat.unitEntry a k : K) = 0 := if_neg (Ne.symm hne)
    rcases Mat.unitEntry_cases (K := K) (g k) c with h | h <;> simp [hzero, h]

/-! ## Products and lifts -/

namespace Mat.Reads

variable {a b m : Mat K} {n : ℕ} {σ τ : ℕ → ℕ}

/-- To multiply is to read one after the other. -/
theorem mul (ha : a.Reads n σ) (hb : b.Reads n τ) : (a.mul b).Reads n fun r => τ (σ r) where
  isSquare := ⟨ha.isSquare.1, hb.isSquare.2⟩
  lt r hr := hb.lt _ (ha.lt r hr)
  get_eq r hr c hc := by
    unfold Mat.mul
    rw [get_ofFn _ (by rwa [ha.isSquare.1]) (by rwa [hb.isSquare.2]), ha.isSquare.2,
      ← sumBelow_unitEntry τ (ha.lt r hr)]
    exact sumBelow_congr fun k hk => by rw [ha.get_eq r hr k hk, hb.get_eq k hk c hc]

/-- A lifted gate reads the listed bits elsewhere and leaves the others. -/
theorem lift {qs : List ℕ} (hm : m.Reads (2 ^ qs.length) σ) (hq : ∀ q ∈ qs, q < n) :
    (liftGate m qs n).Reads (2 ^ n) fun r => replaceBits n qs (σ (packBits n qs r)) r where
  isSquare := ⟨Nat.pow_eq, Nat.pow_eq⟩
  lt _ hr := replaceBits_lt hq hr
  get_eq r hr c hc := by
    have hp := packBits_lt n qs r
    unfold liftGate
    rw [get_ofFn _ (by rwa [Nat.pow_eq]) (by rwa [Nat.pow_eq]), Nat.pow_eq,
      ← sumBelow_unitEntry (fun j => replaceBits n qs j r) (hm.lt _ hp)]
    exact sumBelow_congr fun j hj => by rw [hm.get_eq _ hp j hj]

/-- An entry of the lifted gate is that of the gate at the listed bits, and nought where row and
column differ in another bit. -/
theorem get_lift {qs : List ℕ} {r c : ℕ} (hm : m.Reads (2 ^ qs.length) σ) (hd : qs.Nodup)
    (hq : ∀ q ∈ qs, q < n) (hr : r < 2 ^ n) (hc : c < 2 ^ n) :
    (liftGate m qs n).get r c =
      if ∀ q < n, q ∉ qs → bitAt n q r = bitAt n q c then m.get (packBits n qs r) (packBits n qs c)
      else 0 := by
  have hp := packBits_lt n qs r
  rw [(hm.lift hq).get_eq r hr c hc, hm.get_eq _ hp _ (packBits_lt n qs c)]
  unfold unitEntry
  simp only [replaceBits_eq_iff hd hq (hm.lt _ hp) hr hc, ite_and]

end Mat.Reads

end

/-- To multiply by the matrix is to read rows elsewhere. -/
theorem Mat.Reads.get_mul {K : Type} [Semiring K] {m u : Mat K} {n r c : ℕ} {σ : ℕ → ℕ}
    (hm : m.Reads n σ) (hu : u.IsSquare n) (hr : r < n) (hc : c < n) :
    (m.mul u).get r c = u.get (σ r) c := by
  have hself : m.get r (σ r) = 1 := (hm.get_eq r hr _ (hm.lt r hr)).trans (if_pos rfl)
  rw [Mat.get_mul hm.isSquare hu hr hc, Finset.sum_eq_single (σ r), hself, one_mul]
  · intro k hk hne
    have hother : m.get r k = 0 :=
      (hm.get_eq r hr k (Finset.mem_range.mp hk)).trans (if_neg (Ne.symm hne))
    rw [hother, zero_mul]
  · intro hmem
    exact absurd (Finset.mem_range.mpr (hm.lt r hr)) hmem

end QuantumGates
