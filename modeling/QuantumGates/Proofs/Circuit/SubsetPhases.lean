-- The subsets that the phases of the network act on. The loop with a given highest qubit keeps the
-- code of the step before and flips at the highest bit in which the next code differs. Followed
-- step by step, its accumulator holds its own bit and the subset of the lower ones that the code
-- stands for, so that the phases of the loop act on every such set once and the last flip leaves
-- the own bit alone. Over all loops the sets are all that are not empty.
import QuantumGates.Proofs.Circuit.CodeSubsets
import QuantumGates.Proofs.Circuit.HeldParities

namespace QuantumGates

open Finset NetworkMove

/-! ## The loop -/

/-- The steps of a loop in their order, the code of the step before being kept, and the flip that
undoes the last code. -/
def codeLoop (lower : List ℕ) (accumulator : ℕ) : ℕ → List ℕ → List NetworkMove
  | previous, [] => foldMove lower accumulator previous
  | previous, step :: steps =>
    foldMove lower accumulator (grayCode step ^^^ previous) ++
      .phase accumulator (evenBits (grayCode step)) ::
        codeLoop lower accumulator (grayCode step) steps

/-- A loop over consecutive steps. -/
theorem codeLoop_range' (lower : List ℕ) (accumulator first count : ℕ) :
    codeLoop lower accumulator (grayCode (first - 1)) (List.range' first count) =
      (List.range' first count).flatMap (stepMoves lower accumulator) ++
        foldMove lower accumulator (grayCode (first + count - 1)) := by
  induction count generalizing first with
  | zero => rfl
  | succ count ih =>
    have hend : first + (count + 1) - 1 = first + 1 + count - 1 := by omega
    rw [List.range'_succ, codeLoop, List.flatMap_cons, hend]
    have hnext := ih (first + 1)
    rw [Nat.add_sub_cancel] at hnext
    rw [hnext]
    unfold stepMoves
    simp only [List.append_assoc, List.cons_append, List.nil_append]

theorem blockMoves_eq_codeLoop (lower : List ℕ) (accumulator : ℕ) :
    blockMoves lower accumulator =
      codeLoop lower accumulator 0 (List.range (2 ^ lower.length)) := by
  have hloop := codeLoop_range' lower accumulator 0 (2 ^ lower.length)
  rw [← List.range_eq_range', Nat.zero_add] at hloop
  exact hloop.symm

/-! ## Qubits by their places -/

section

variable (f : ℕ → ℕ) {lower : List ℕ} (accumulator : ℕ)

theorem foldMove_map {change : ℕ} (h : change = 0 ∨ ∃ t < lower.length, change = 2 ^ t) :
    foldMove (lower.map f) (f accumulator) change =
      (foldMove lower accumulator change).map (NetworkMove.rename f) := by
  unfold foldMove
  obtain rfl | ⟨t, ht, rfl⟩ := h
  · rfl
  · have hplace : highestBit (2 ^ t) = t := Nat.log2_two_pow
    rw [if_neg (Nat.two_pow_pos t).ne', if_neg (Nat.two_pow_pos t).ne', hplace]
    simp [NetworkMove.rename, ht]

theorem stepMoves_map {m : ℕ} (hm : m < 2 ^ lower.length) :
    stepMoves (lower.map f) (f accumulator) m =
      (stepMoves lower accumulator m).map (NetworkMove.rename f) := by
  unfold stepMoves
  rw [foldMove_map f accumulator (grayCode_change hm), List.map_append]
  rfl

/-- The moves of a block depend on its qubits by their places only. -/
theorem blockMoves_map : blockMoves (lower.map f) (f accumulator) =
    (blockMoves lower accumulator).map (NetworkMove.rename f) := by
  unfold blockMoves
  rw [List.length_map, List.map_append, List.map_flatMap,
    foldMove_map f accumulator (grayCode_close lower.length)]
  congr 1
  exact List.flatMap_congr fun m hm => stepMoves_map f accumulator (List.mem_range.mp hm)

end

/-- The loop on places, the accumulator above the lower ones. -/
def placeLoop (h : ℕ) : List NetworkMove := codeLoop (List.range h) h 0 (List.range (2 ^ h))

theorem placeLoop_eq (h : ℕ) : placeLoop h = blockMoves (List.range h) h := by
  have hblock := blockMoves_eq_codeLoop (List.range h) h
  rw [List.length_range] at hblock
  exact hblock.symm

/-- The loop on the qubits of a list is the loop on their places. -/
theorem codeLoop_take {qubits : List ℕ} {h : ℕ} (hh : h < qubits.length) :
    codeLoop (qubits.take h) (qubits.getD h 0) 0 (List.range (2 ^ h)) =
      (placeLoop h).map (NetworkMove.rename (qubits.getD · 0)) := by
  have htake : qubits.take h = (List.range h).map (qubits.getD · 0) := by
    refine List.ext_getElem (by simp [hh.le]) fun i hi _ => ?_
    rw [List.length_take_of_le hh.le] at hi
    simp [hi.trans hh]
  have hblock := blockMoves_eq_codeLoop (qubits.take h) (qubits.getD h 0)
  rw [List.length_take_of_le hh.le] at hblock
  rw [← hblock, htake, placeLoop_eq]
  exact blockMoves_map (qubits.getD · 0) h

/-! ## The steps of a loop -/

theorem stepMoves_zero (lower : List ℕ) (accumulator : ℕ) :
    stepMoves lower accumulator 0 = [.phase accumulator true] := rfl

/-- One lower place is flipped between a step and the next. -/
theorem stepMoves_succ {h k : ℕ} (hk : k + 1 < 2 ^ h) :
    stepMoves (List.range h) h (k + 1) =
      [.flip (changedPlace k) h, .phase h (evenBits (grayCode (k + 1)))] := by
  obtain ⟨hplace, hchange⟩ := changedPlace_spec hk
  have hbit : highestBit (2 ^ changedPlace k) = changedPlace k := Nat.log2_two_pow
  unfold stepMoves foldMove
  rw [Nat.add_sub_cancel, hchange, if_neg (Nat.two_pow_pos _).ne', hbit]
  simp [hplace]

/-- The flip that undoes the last code is by the highest of the lower places. -/
theorem foldMove_last (h : ℕ) :
    foldMove (List.range h) h (grayCode (2 ^ h - 1)) = if h = 0 then [] else [.flip (h - 1) h] := by
  cases h with
  | zero => rfl
  | succ h =>
    have hbit : highestBit (2 ^ h) = h := Nat.log2_two_pow
    unfold foldMove
    rw [grayCode_last, if_neg (Nat.two_pow_pos h).ne', if_neg (Nat.succ_ne_zero h), hbit]
    simp

/-- The first of the steps and the others. -/
theorem range_two_pow (h : ℕ) :
    List.range (2 ^ h) = 0 :: (List.range (2 ^ h - 1)).map Nat.succ := by
  rw [← List.range_succ_eq_map, Nat.sub_add_cancel (Nat.two_pow_pos h)]

/-- The flip between a step and the next, and the phase of the next one. -/
def turn (h k : ℕ) : List NetworkMove :=
  [.flip (changedPlace k) h, .phase h (evenBits (grayCode (k + 1)))]

/-- A loop is a phase, a turn for each further step, and a last flip. -/
theorem placeLoop_eq_turns (h : ℕ) :
    placeLoop h = .phase h true :: (List.range (2 ^ h - 1)).flatMap (turn h) ++
      if h = 0 then [] else [.flip (h - 1) h] := by
  rw [placeLoop_eq, ← foldMove_last]
  unfold blockMoves
  rw [List.length_range, range_two_pow, List.flatMap_cons, stepMoves_zero, List.flatMap_map,
    List.singleton_append]
  congr 2
  refine List.flatMap_congr fun k hk => ?_
  have hlt := List.mem_range.mp hk
  exact stepMoves_succ (by omega)

/-! ## The sets of a loop -/

/-- What the places hold when the subset of a code is folded into the accumulator. -/
def foldedBits (h code : ℕ) : ℕ → Finset ℕ :=
  Function.update ownBits h (insert h (codeSet code))

theorem foldedBits_zero (h : ℕ) : foldedBits h 0 = ownBits := by
  unfold foldedBits
  rw [codeSet_zero, insert_empty_eq]
  exact Function.update_eq_self h ownBits

theorem insert_symmDiff {h t : ℕ} (ht : t ≠ h) (S : Finset ℕ) :
    symmDiff (insert h S) {t} = insert h (symmDiff S {t}) := by
  ext i
  simp only [mem_symmDiff, mem_insert, mem_singleton]
  by_cases hi : i = h
  · subst hi
    simp [Ne.symm ht]
  · simp [hi]

/-- A flip by a lower place adds it to the subset or takes it out. -/
theorem hold_flip_foldedBits {h t : ℕ} (ht : t < h) (code : ℕ) :
    (NetworkMove.flip t h).hold (foldedBits h code) = foldedBits h (code ^^^ 2 ^ t) := by
  have hself : foldedBits h code h = insert h (codeSet code) := Function.update_self ..
  have hother : foldedBits h code t = {t} := Function.update_of_ne ht.ne ..
  rw [hold, hself, hother, insert_symmDiff ht.ne, ← codeSet_xor_two_pow]
  exact Function.update_idem ..

/-- What the phase of a step acts on: the subset of its code, with the accumulator. -/
def stepPhase (h k : ℕ) : Finset ℕ × Bool :=
  (insert h (codeSet (grayCode k)), evenBits (grayCode k))

/-- A turn leads from the subset of a step to that of the next, on which its phase acts. -/
theorem hold_turn {h k : ℕ} (hk : k + 1 < 2 ^ h) :
    holdAll (turn h k) (foldedBits h (grayCode k)) = foldedBits h (grayCode (k + 1)) ∧
      phases (turn h k) (foldedBits h (grayCode k)) = [stepPhase h (k + 1)] := by
  obtain ⟨hplace, hchange⟩ := changedPlace_spec hk
  have hcode : grayCode k ^^^ 2 ^ changedPlace k = grayCode (k + 1) := by
    rw [← hchange, Nat.xor_comm, Nat.xor_assoc, Nat.xor_self, Nat.xor_zero]
  have hflip := hold_flip_foldedBits hplace (grayCode k)
  rw [hcode] at hflip
  have hself : foldedBits h (grayCode (k + 1)) h = insert h (codeSet (grayCode (k + 1))) :=
    Function.update_self ..
  unfold turn
  refine ⟨hflip, ?_⟩
  rw [phases, hflip, phases, hself]
  rfl

/-- After `k` turns the subset of step `k` is folded in, and the phases have acted on those of all
steps so far. -/
theorem hold_turns {h k : ℕ} (hk : k < 2 ^ h) :
    holdAll ((List.range k).flatMap (turn h)) ownBits = foldedBits h (grayCode k) ∧
      phases ((List.range k).flatMap (turn h)) ownBits =
        (List.range k).map fun j => stepPhase h (j + 1) := by
  induction k with
  | zero => exact ⟨(foldedBits_zero h).symm, rfl⟩
  | succ k ih =>
    obtain ⟨hheld, hphases⟩ := ih (by omega)
    obtain ⟨hnext, hlast⟩ := hold_turn hk
    rw [List.range_succ, List.flatMap_append, List.flatMap_singleton, holdAll_append,
      phases_append, hheld, hphases, List.map_append]
    exact ⟨hnext, congrArg _ hlast⟩

/-- The last flip takes the last subset out of the accumulator. -/
theorem hold_last (h : ℕ) :
    holdAll (if h = 0 then [] else [.flip (h - 1) h]) (foldedBits h (grayCode (2 ^ h - 1))) =
      ownBits := by
  cases h with
  | zero => exact foldedBits_zero 0
  | succ h =>
    rw [if_neg (Nat.succ_ne_zero h), grayCode_last]
    show (NetworkMove.flip h (h + 1)).hold (foldedBits (h + 1) (2 ^ h)) = ownBits
    rw [hold_flip_foldedBits (by omega), Nat.xor_self, foldedBits_zero]

/-- The loop leaves its accumulator as it was, and its phases act on the subsets of all steps. -/
theorem hold_placeLoop (h : ℕ) :
    holdAll (placeLoop h) ownBits = ownBits ∧
      phases (placeLoop h) ownBits = (List.range (2 ^ h)).map (stepPhase h) := by
  obtain ⟨hheld, hphases⟩ := hold_turns (h := h) (k := 2 ^ h - 1) (by
    have := Nat.two_pow_pos h
    omega)
  have hfirst : stepPhase h 0 = (ownBits h, true) := by
    have hzero : grayCode 0 = 0 := rfl
    unfold stepPhase
    rw [hzero, codeSet_zero]
    rfl
  have hnone : ∀ held, phases (if h = 0 then [] else [.flip (h - 1) h]) held = [] := by
    intro held
    split <;> rfl
  rw [placeLoop_eq_turns, holdAll_append, phases_append, hnone, List.append_nil, range_two_pow,
    List.map_cons, List.map_map, hfirst, holdAll, phases, hold, hheld, hphases]
  exact ⟨hold_last h, rfl⟩

/-! ## Each set once -/

/-- The phases act on each set of a kind once, forward if the size of the set is odd. -/
def EachOnce (phases : List (Finset ℕ × Bool)) (kind : Finset ℕ → Prop) : Prop :=
  phases.Nodup ∧ ∀ S forward, (S, forward) ∈ phases ↔ kind S ∧ forward = decide (Odd S.card)

theorem codeSet_grayCode_subset {h k : ℕ} (hk : k < 2 ^ h) : codeSet (grayCode k) ⊆ range h :=
  codeSet_subset_range.mpr (grayCode_lt hk)

theorem notMem_of_subset_range {h : ℕ} {T : Finset ℕ} (hT : T ⊆ range h) : h ∉ T :=
  fun hmem => (mem_range.mp (hT hmem)).ne rfl

/-- The phase of a step is forward if the subset with the accumulator has odd size. -/
theorem stepPhase_snd {h k : ℕ} (hk : k < 2 ^ h) :
    (stepPhase h k).2 = decide (Odd (stepPhase h k).1.card) := by
  have hnot := notMem_of_subset_range (codeSet_grayCode_subset hk)
  unfold stepPhase
  rw [evenBits_eq, card_insert_of_notMem hnot]
  refine decide_eq_decide.mpr ?_
  rw [Nat.odd_add_one, Nat.not_odd_iff_even]

/-- The phases of a loop act on every subset of the lower places, the accumulator added, once. -/
theorem eachOnce_placeLoop (h : ℕ) :
    EachOnce (phases (placeLoop h) ownBits) fun S => ∃ T ⊆ range h, S = insert h T := by
  rw [(hold_placeLoop h).2]
  constructor
  · refine List.Nodup.map_on (fun j hj k hk heq => ?_) List.nodup_range
    rw [List.mem_range] at hj hk
    have hsets : insert h (codeSet (grayCode j)) = insert h (codeSet (grayCode k)) :=
      congrArg Prod.fst heq
    have herase := congrArg (fun S => S.erase h) hsets
    simp only [erase_insert (notMem_of_subset_range (codeSet_grayCode_subset hj)),
      erase_insert (notMem_of_subset_range (codeSet_grayCode_subset hk))] at herase
    exact grayCode_injOn h (by simpa using hj) (by simpa using hk) (codeSet_injective herase)
  · intro S forward
    rw [List.mem_map]
    constructor
    · rintro ⟨k, hk, hphase⟩
      rw [List.mem_range] at hk
      obtain ⟨rfl, rfl⟩ := Prod.mk.inj hphase.symm
      exact ⟨⟨_, codeSet_grayCode_subset hk, rfl⟩, stepPhase_snd hk⟩
    · rintro ⟨⟨T, hT, rfl⟩, rfl⟩
      obtain ⟨k, hk, rfl⟩ := exists_codeSet_grayCode hT
      exact ⟨k, List.mem_range.mpr hk, Prod.ext rfl (stepPhase_snd hk)⟩

/-! ## All loops -/

/-- The loops on places, the highest accumulator first. -/
def placeNetwork (n : ℕ) : List NetworkMove := (List.range n).reverse.flatMap placeLoop

theorem placeNetwork_succ (n : ℕ) : placeNetwork (n + 1) = placeLoop n ++ placeNetwork n := by
  unfold placeNetwork
  rw [List.range_succ, List.reverse_append, List.reverse_singleton, List.singleton_append,
    List.flatMap_cons]

theorem hold_placeNetwork (n : ℕ) :
    holdAll (placeNetwork n) ownBits = ownBits ∧
      phases (placeNetwork n) ownBits =
        (List.range n).reverse.flatMap fun h => phases (placeLoop h) ownBits :=
  phases_flatMap fun h _ => (hold_placeLoop h).1

/-- A set that is not empty is its greatest member with a subset of the places below it. -/
theorem exists_insert_iff {n : ℕ} {S : Finset ℕ} :
    (∃ h < n, ∃ T ⊆ range h, S = insert h T) ↔ S.Nonempty ∧ S ⊆ range n := by
  constructor
  · rintro ⟨h, hn, T, hT, rfl⟩
    refine ⟨insert_nonempty h T, fun i hi => mem_range.mpr ?_⟩
    rcases mem_insert.mp hi with rfl | hi
    · exact hn
    · exact lt_trans (mem_range.mp (hT hi)) hn
  · rintro ⟨hne, hS⟩
    have hmax := S.max'_mem hne
    refine ⟨S.max' hne, mem_range.mp (hS hmax), S.erase (S.max' hne), fun i hi => ?_,
      (insert_erase hmax).symm⟩
    rw [mem_range]
    exact S.lt_max'_of_mem_erase_max' hne hi

/-- The loop that a set belongs to is that of its greatest member. -/
theorem eq_of_insert_eq_insert {h i : ℕ} {T U : Finset ℕ} (hT : T ⊆ range h) (hU : U ⊆ range i)
    (heq : insert h T = insert i U) : h = i := by
  have hh : h = i ∨ h ∈ U := mem_insert.mp (heq ▸ mem_insert_self h T)
  have hi : i = h ∨ i ∈ T := mem_insert.mp (heq ▸ mem_insert_self i U)
  rcases hh with hh | hh
  · exact hh
  · rcases hi with hi | hi
    · exact hi.symm
    · have hlt := mem_range.mp (hU hh)
      have hgt := mem_range.mp (hT hi)
      omega

/-- The phases of the network act on every set that is not empty once. -/
theorem eachOnce_placeNetwork (n : ℕ) :
    EachOnce (phases (placeNetwork n) ownBits) fun S => S.Nonempty ∧ S ⊆ range n := by
  rw [(hold_placeNetwork n).2]
  constructor
  · rw [List.nodup_flatMap]
    refine ⟨fun h _ => (eachOnce_placeLoop h).1, ?_⟩
    refine (List.nodup_reverse.mpr List.nodup_range).imp ?_
    rintro h i hne ⟨S, forward⟩ hmem hmem'
    obtain ⟨⟨T, hT, rfl⟩, -⟩ := ((eachOnce_placeLoop h).2 _ _).mp hmem
    obtain ⟨⟨U, hU, heq⟩, -⟩ := ((eachOnce_placeLoop i).2 _ _).mp hmem'
    exact hne (eq_of_insert_eq_insert hT hU heq)
  · intro S forward
    simp only [← exists_insert_iff, List.mem_flatMap, List.mem_reverse, List.mem_range,
      (eachOnce_placeLoop _).2]
    constructor
    · rintro ⟨h, hn, hset, hforward⟩
      exact ⟨⟨h, hn, hset⟩, hforward⟩
    · rintro ⟨⟨h, hn, hset⟩, hforward⟩
      exact ⟨h, hn, hset, hforward⟩

end QuantumGates
