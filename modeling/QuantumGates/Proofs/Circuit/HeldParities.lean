-- What controlled flips do, said with sets of bits. Each qubit holds the parity of a set of bits of
-- the basis state that the moves began with: at first of its own bit, and a controlled flip takes
-- the set of the control into that of the target. A phase acts on the set that its qubit holds, so
-- that the count of a run is a sum of signed parities. The moves name the qubits by their places in
-- a list.
import QuantumGates.Proofs.Circuit.ParityPhase

namespace QuantumGates

open Finset

namespace NetworkMove

/-! ## Sets of bits -/

/-- The sets whose parities the qubits hold after a move. Members of both sets cancel. -/
def hold : NetworkMove → (ℕ → Finset ℕ) → ℕ → Finset ℕ
  | flip control target, held =>
    Function.update held target (symmDiff (held target) (held control))
  | phase _ _, held => held

/-- The sets that the qubits hold after all moves. -/
def holdAll : List NetworkMove → (ℕ → Finset ℕ) → ℕ → Finset ℕ
  | [], held => held
  | move :: moves, held => holdAll moves (move.hold held)

/-- The sets that the phases act on, in their order, each with the direction of its angle. -/
def phases : List NetworkMove → (ℕ → Finset ℕ) → List (Finset ℕ × Bool)
  | [], _ => []
  | flip control target :: moves, held => phases moves ((flip control target).hold held)
  | phase qubit forward :: moves, held => (held qubit, forward) :: phases moves held

/-- At first each qubit holds its own bit. -/
def ownBits (qubit : ℕ) : Finset ℕ := {qubit}

theorem holdAll_append (as bs : List NetworkMove) (held : ℕ → Finset ℕ) :
    holdAll (as ++ bs) held = holdAll bs (holdAll as held) := by
  induction as generalizing held with
  | nil => rfl
  | cons a as ih => exact ih _

theorem phases_append (as bs : List NetworkMove) (held : ℕ → Finset ℕ) :
    phases (as ++ bs) held = phases as held ++ phases bs (holdAll as held) := by
  induction as generalizing held with
  | nil => rfl
  | cons a as ih =>
    cases a with
    | flip control target => exact ih _
    | phase qubit forward => exact congrArg _ (ih _)

/-- Moves that restore what the qubits hold can be followed one part after the other. -/
theorem phases_flatMap {hs : List ℕ} {part : ℕ → List NetworkMove} {held : ℕ → Finset ℕ}
    (h : ∀ i ∈ hs, holdAll (part i) held = held) :
    holdAll (hs.flatMap part) held = held ∧
      phases (hs.flatMap part) held = hs.flatMap fun i => phases (part i) held := by
  induction hs with
  | nil => exact ⟨rfl, rfl⟩
  | cons i hs ih =>
    obtain ⟨hheld, hphases⟩ := ih fun j hj => h j (List.mem_cons_of_mem i hj)
    have hi := h i List.mem_cons_self
    rw [List.flatMap_cons, List.flatMap_cons, holdAll_append, phases_append, hi, hphases]
    exact ⟨hheld, rfl⟩

/-! ## Parities of a basis state -/

/-- The parity of a set of bits. -/
def parityOf (bit : ℕ → ℕ) (S : Finset ℕ) : ℕ := (∑ i ∈ S, bit i) % 2

/-- What a phase adds to the count: the parity of its set, negative for the opposite angle. -/
def signedParity (bit : ℕ → ℕ) (p : Finset ℕ × Bool) : ℤ :=
  (if p.2 then 1 else -1) * parityOf bit p.1

/-- Members of both sets do not matter to the sum of two parities. -/
theorem parityOf_symmDiff (bit : ℕ → ℕ) (S T : Finset ℕ) :
    parityOf bit (symmDiff S T) = (parityOf bit S + parityOf bit T) % 2 := by
  have hS := sum_inter_add_sum_sdiff S T bit
  have hT := sum_inter_add_sum_sdiff T S bit
  have hsum : ∑ i ∈ symmDiff S T, bit i = ∑ i ∈ S \ T, bit i + ∑ i ∈ T \ S, bit i :=
    sum_union disjoint_sdiff_sdiff
  rw [inter_comm] at hT
  unfold parityOf
  rw [hsum]
  omega

/-- A move on other qubits. -/
def rename (f : ℕ → ℕ) : NetworkMove → NetworkMove
  | flip control target => flip (f control) (f target)
  | phase qubit forward => phase (f qubit) forward

section

variable {n x : ℕ} {qs : List ℕ}

/-- The bit of a basis state at a place in the list of qubits. -/
def bitAtPlace (n : ℕ) (qs : List ℕ) (x i : ℕ) : ℕ := bitAt n (qs.getD i 0) x

/-- The bits of a basis state `y` at the places of a list are parities of bits of `x`. -/
def Holds (n : ℕ) (qs : List ℕ) (x : ℕ) (held : ℕ → Finset ℕ) (y : ℕ) : Prop :=
  ∀ i < qs.length, bitAtPlace n qs y i = parityOf (bitAtPlace n qs x) (held i)

theorem holds_ownBits (n : ℕ) (qs : List ℕ) (x : ℕ) : Holds n qs x ownBits x := by
  intro i _
  unfold parityOf ownBits
  rw [sum_singleton]
  exact (Nat.mod_eq_of_lt (bitAt_lt n _ x)).symm

theorem getD_lt (hq : ∀ q ∈ qs, q < n) {i : ℕ} (hi : i < qs.length) : qs.getD i 0 < n := by
  rw [List.getD_eq_getElem _ _ hi]
  exact hq _ (List.getElem_mem hi)

theorem getD_inj (hd : qs.Nodup) {i j : ℕ} (hi : i < qs.length) (hj : j < qs.length) :
    qs.getD i 0 = qs.getD j 0 ↔ i = j := by
  rw [List.getD_eq_getElem _ _ hi, List.getD_eq_getElem _ _ hj, hd.getElem_inj_iff]

theorem bitAtPlace_flipIf (hd : qs.Nodup) (hq : ∀ q ∈ qs, q < n) {control target i : ℕ}
    (ht : target < qs.length) (hi : i < qs.length) (y : ℕ) :
    bitAtPlace n qs (flipIf n (qs.getD control 0) (qs.getD target 0) y) i =
      if i = target then (bitAtPlace n qs y target + bitAtPlace n qs y control) % 2
      else bitAtPlace n qs y i := by
  unfold bitAtPlace
  rw [bitAt_flipIf (getD_lt hq ht) (getD_lt hq hi)]
  simp only [getD_inj hd hi ht]

theorem Holds.flip (hd : qs.Nodup) (hq : ∀ q ∈ qs, q < n) {held : ℕ → Finset ℕ}
    {y control target : ℕ} (h : Holds n qs x held y) (hc : control < qs.length)
    (ht : target < qs.length) :
    Holds n qs x ((NetworkMove.flip control target).hold held)
      (flipIf n (qs.getD control 0) (qs.getD target 0) y) := by
  intro i hi
  rw [bitAtPlace_flipIf hd hq ht hi, hold]
  by_cases heq : i = target
  · subst heq
    rw [if_pos rfl, Function.update_self, parityOf_symmDiff, h i hi, h control hc]
  · rw [if_neg heq, Function.update_of_ne heq, h i hi]

/-- Moves on the places of distinct qubits, run on these qubits, end with the parities that the
places hold and have counted those of the phases. -/
theorem Holds.run (hd : qs.Nodup) (hq : ∀ q ∈ qs, q < n) {moves : List NetworkMove}
    (hv : ∀ m ∈ moves, m.Valid qs.length) {held : ℕ → Finset ℕ} {y : ℕ} (h : Holds n qs x held y)
    (count : ℤ) :
    Holds n qs x (holdAll moves held)
        (NetworkMove.run n (moves.map (rename (qs.getD · 0))) (y, count)).1 ∧
      (NetworkMove.run n (moves.map (rename (qs.getD · 0))) (y, count)).2 =
        count + ((phases moves held).map (signedParity (bitAtPlace n qs x))).sum := by
  induction moves generalizing held y count with
  | nil => exact ⟨h, (add_zero count).symm⟩
  | cons move moves ih =>
    have hmove := hv move List.mem_cons_self
    have hrest : ∀ m ∈ moves, m.Valid qs.length := fun m hm => hv m (List.mem_cons_of_mem move hm)
    cases move with
    | flip control target => exact ih hrest (h.flip hd hq hmove.1 hmove.2.1) count
    | phase place forward =>
      have hshare : signedParity (bitAtPlace n qs x) (held place, forward) =
          (if forward then 1 else -1) * (bitAtPlace n qs y place : ℤ) := by
        unfold signedParity
        rw [h place hmove]
      obtain ⟨hholds, hcount⟩ :=
        ih hrest h (count + (if forward then 1 else -1) * (bitAtPlace n qs y place : ℤ))
      refine ⟨hholds, hcount.trans ?_⟩
      rw [phases, List.map_cons, List.sum_cons, ← add_assoc, hshare]

end

end NetworkMove

end QuantumGates
