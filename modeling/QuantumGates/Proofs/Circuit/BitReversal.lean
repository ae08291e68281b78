-- The reversal of the order of the qubits, said in three ways. The indices of a register are
-- permuted by reading their binary digits backwards, bit by bit the first qubit changes places with
-- the last and so on, and the exchanges of a circuit do the same to the register.
import QuantumGates.Datum.Grid
import QuantumGates.Proofs.Circuit.FourierGates
import QuantumGates.Proofs.Circuit.Reversal
import QuantumGates.Proofs.Datum.Values
import QuantumGates.Proofs.Register.Selection

namespace QuantumGates

open CMat

/-! ## The permutation -/

theorem length_bitReversal (n : ℕ) : (bitReversal n).length = 2 ^ n := by
  simp [bitReversal]

theorem getElem?_bitReversal {n r : ℕ} (hr : r < 2 ^ n) :
    (bitReversal n)[r]? = some (reversedBits n r) := by
  unfold bitReversal reversedBits
  simp [List.getElem?_range hr]

/-- The bit at a place from the left becomes that at the same place from the right. -/
theorem bitAt_reversedBits {n i r : ℕ} (hi : i < n) :
    bitAt n (n - 1 - i) (reversedBits n r) = bitAt n i r := by
  have hlen : (List.range n).reverse.length = n := by simp
  have hplace : n - 1 - i < (List.range n).reverse.length := by omega
  have hpack := bitAt_packBits n (List.range n).reverse r hplace
  have hback : n - 1 - (n - 1 - i) = i := by omega
  rw [List.getElem_reverse, List.getElem_range, List.length_range, hback, hlen] at hpack
  exact hpack

theorem bitReversal_perm (n : ℕ) : (bitReversal n).Perm (List.range (2 ^ n)) := by
  have hmap : bitReversal n = (List.range (2 ^ n)).map (reversedBits n) := by
    unfold bitReversal
    rw [Nat.pow_eq]
    rfl
  have hinj : (bitReversal n).Nodup := by
    rw [hmap]
    refine List.Nodup.map_on (fun r hr s hs heq => ?_) List.nodup_range
    rw [← reversedBits_reversedBits (List.mem_range.mp hr), heq,
      reversedBits_reversedBits (List.mem_range.mp hs)]
  refine (List.perm_ext_iff_of_nodup hinj List.nodup_range).mpr fun s => ?_
  rw [hmap, List.mem_map, List.mem_range]
  constructor
  · rintro ⟨r, -, rfl⟩
    exact reversedBits_lt n r
  · intro hs
    exact ⟨_, List.mem_range.mpr (reversedBits_lt n s), reversedBits_reversedBits hs⟩

/-! ## Binary digits -/

/-- One more digit goes behind the digits of the half. -/
theorem leftpad_toDigits_succ (n r : ℕ) :
    (Nat.toDigits 2 r).leftpad (n + 2) '0' =
      (Nat.toDigits 2 (r / 2)).leftpad (n + 1) '0' ++ [Nat.digitChar (r % 2)] := by
  rcases Nat.lt_or_ge r 2 with hr | hr
  · have hhalf : r / 2 = 0 := by omega
    rw [hhalf, Nat.toDigits_of_lt_base hr, Nat.toDigits_of_lt_base (by omega), Nat.mod_eq_of_lt hr]
    unfold List.leftpad
    show List.replicate (n + 1) '0' ++ _ = (List.replicate n '0' ++ ['0']) ++ _
    rw [List.replicate_succ']
  · unfold List.leftpad
    have hwidth : n + 2 - ((Nat.toDigits 2 (r / 2)).length + 1) =
        n + 1 - (Nat.toDigits 2 (r / 2)).length := by omega
    rw [Nat.toDigits_of_base_le (by omega) hr, List.length_append, List.length_singleton, hwidth,
      List.append_assoc]

/-- The binary digits of an index, with noughts in front, are the bits of the register. -/
theorem leftpad_toDigits {n r : ℕ} (hr : r < 2 ^ (n + 1)) :
    (Nat.toDigits 2 r).leftpad (n + 1) '0' =
      (List.range (n + 1)).map fun i => Nat.digitChar (bitAt (n + 1) i r) := by
  induction n generalizing r with
  | zero =>
    have hr' : r < 2 := by simpa using hr
    interval_cases r <;> rfl
  | succ n ih =>
    have hlast : bitAt (n + 2) (n + 1) r = r % 2 := by
      unfold bitAt
      simp
    have hfront : ∀ i < n + 1, bitAt (n + 2) i r = bitAt (n + 1) i (r / 2) := by
      intro i hi
      unfold bitAt
      have hexp : n + 2 - 1 - i = n + 1 - 1 - i + 1 := by omega
      rw [hexp, Nat.pow_eq, Nat.pow_eq, pow_succ', Nat.div_div_eq_div_mul]
    rw [leftpad_toDigits_succ, ih (by rw [pow_succ] at hr; omega), List.range_succ (n := n + 1),
      List.map_append, List.map_singleton, hlast]
    congr 1
    exact List.map_congr_left fun i hi => by rw [hfront i (List.mem_range.mp hi)]

/-- Digits read as a number are packed bits. -/
theorem ofDigitChars_map_bitAt (n : ℕ) (qs : List ℕ) (r : ℕ) :
    Nat.ofDigitChars 2 (qs.map fun q => Nat.digitChar (bitAt n q r)) 0 = packBits n qs r := by
  have hdigit : ∀ q, (Nat.digitChar (bitAt n q r)).toNat - '0'.toNat = bitAt n q r := by
    intro q
    rcases bitAt_cases n q r with h | h <;> rw [h] <;> rfl
  rw [Nat.ofDigitChars_eq_foldl, List.foldl_map]
  simp only [hdigit]
  rfl

/-- Each index of the permutation is read from binary digits in reversed order. -/
theorem bitReversal_eq_digits (n : ℕ) :
    bitReversal n = (List.range (2 ^ n)).map fun r =>
      Nat.ofDigitChars 2 ((Nat.toDigits 2 r).leftpad n '0').reverse 0 := by
  unfold bitReversal
  rw [Nat.pow_eq]
  refine List.map_congr_left fun r hr => ?_
  cases n with
  | zero =>
    have h0 : r = 0 := by simpa using hr
    subst h0
    rfl
  | succ n => rw [leftpad_toDigits (List.mem_range.mp hr), ← List.map_reverse,
      ofDigitChars_map_bitAt]

/-- Every number of qubits has its permutation. -/
theorem Datum.bitReversal_integer (n : ℕ) :
    (Datum.integer n).bitReversal = .ok (QuantumGates.bitReversal n) := by
  unfold Datum.bitReversal
  rw [equal_integer]
  by_cases h0 : (n : ℤ) = 0
  · have hn : n = 0 := by exact_mod_cast h0
    subst hn
    rfl
  · have hne : ((n : ℤ) == 0) = false := beq_false_of_ne h0
    rw [hne]
    rfl

/-! ## The permutation matrix -/

section

variable {K : Type} [Zero K] [One K]

/-- The matrix of a permutation: its row `r` is one in the column that `r` is sent to. -/
def permutationMatrix (p : List ℕ) : Mat K :=
  Mat.ofFn p.length p.length fun r c => Mat.unitEntry (p[r]?.getD 0) c

theorem reads_bitReversal (n : ℕ) :
    (permutationMatrix (bitReversal n) : Mat K).Reads (2 ^ n) (reversedBits n) where
  isSquare := ⟨length_bitReversal n, length_bitReversal n⟩
  lt r _ := reversedBits_lt n r
  get_eq r hr c hc := by
    unfold permutationMatrix
    rw [Mat.get_ofFn _ (by rwa [length_bitReversal]) (by rwa [length_bitReversal]),
      getElem?_bitReversal hr]
    rfl

end

/-- The permutation of indices that reads binary digits backwards has every index once, sends each
bit to the place as far from the other end, and is its own inverse. The exchanges that reverse a
list of distinct qubits have exactly its matrix on these qubits, in every register that holds them
and for all numbers in which nought and one behave, such as doubles and real numbers. -/
theorem bitReversal_of_exchanges (n : ℕ) :
    (Datum.integer n).bitReversal = .ok (bitReversal n) ∧
    (bitReversal n = (List.range (2 ^ n)).map fun r =>
      Nat.ofDigitChars 2 ((Nat.toDigits 2 r).leftpad n '0').reverse 0) ∧
    (bitReversal n).Perm (List.range (2 ^ n)) ∧
    (∀ r < 2 ^ n, ∃ s < 2 ^ n, (bitReversal n)[r]? = some s ∧ (bitReversal n)[s]? = some r ∧
      ∀ i < n, bitAt n (n - 1 - i) s = bitAt n i r) ∧
    ∀ (R : Type) [Scalar R] [BinaryScalar R] (value : Param R → Except (Fault R) R) (tolerance : R)
      (qs : List ℕ) (m : ℕ), qs.length = n → qs.Nodup → (∀ q ∈ qs, q < m) →
      let exchanges : Circuit R :=
        (List.range (n / 2)).map fun i => .swap (qs.getD i 0) (qs.getD (n - 1 - i) 0)
      let p : CMat R := permutationMatrix (bitReversal n)
      reversal qs = exchanges ∧ ∃ v, exchanges.unitary value tolerance m = .ok v ∧
        embed p qs m = (.ok v : Except (Fault R) (CMat R)) ∧
        (∀ r < 2 ^ m, ∀ c < 2 ^ m, v.get r c =
          if ∀ q < m, q ∉ qs → bitAt m q r = bitAt m q c then
            p.get (packBits m qs r) (packBits m qs c)
          else 0) ∧
        (qs = List.range m → v = p) := by
  refine ⟨Datum.bitReversal_integer n, bitReversal_eq_digits n, bitReversal_perm n, fun r hr => ?_,
    ?_⟩
  · have hs := reversedBits_lt n r
    refine ⟨_, hs, getElem?_bitReversal hr, ?_, fun i hi => bitAt_reversedBits hi⟩
    rw [getElem?_bitReversal hs, reversedBits_reversedBits hr]
  · rintro R _ _ value tolerance qs m rfl hd hq exchanges p
    have hp : p.Reads (2 ^ qs.length) (reversedBits qs.length) := reads_bitReversal qs.length
    have hexchanges : reversal qs = exchanges := reversal_eq_map qs
    refine ⟨hexchanges, liftGate p qs m, ?_, embed_eq_ok hp.isSquare hd hq,
      fun r hr c hc => hp.get_lift hd hq hr hc, ?_⟩
    · rw [← hexchanges, unitary_reversal_eq_lift value tolerance hd hq hp]
    · rintro rfl
      have hlift := hp.lift hq
      rw [List.length_range] at hp hlift
      refine hlift.ext hp fun r hr => ?_
      rw [packBits_range hr, replaceBits_range (reversedBits_lt m r) hr]

/-- Three qubits of a register of four, listed out of order, on doubles and in exact arithmetic: the
first and the last change places and the one between them stays. -/
theorem exchanges_on_three :
    (∃ v : CMat Float,
      Circuit.unitary (fun _ => .error .undefined) 0 [.swap 3 2] 4 = .ok v ∧
        embed (permutationMatrix [0, 4, 2, 6, 1, 5, 3, 7]) [3, 0, 2] 4 =
          (.ok v : Except (Fault Float) (CMat Float))) ∧
    ∃ v : CMat ℝ,
      Circuit.unitary (fun _ => .error .undefined) 0 [.swap 3 2] 4 = .ok v ∧
        embed (permutationMatrix [0, 4, 2, 6, 1, 5, 3, 7]) [3, 0, 2] 4 =
          (.ok v : Except (Fault ℝ) (CMat ℝ)) := by
  obtain ⟨-, -, -, -, hall⟩ := bitReversal_of_exchanges 3
  obtain ⟨-, v, hv, hembed, -⟩ := hall Float (fun _ => .error .undefined) 0 [3, 0, 2] 4 rfl
    (by decide) (by decide)
  obtain ⟨-, w, hw, hembed', -⟩ := hall ℝ (fun _ => .error .undefined) 0 [3, 0, 2] 4 rfl
    (by decide) (by decide)
  exact ⟨⟨v, hv, hembed⟩, w, hw, hembed'⟩

end QuantumGates
