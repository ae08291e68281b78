-- Lifting a gate by indices of any sign. The identity of a register has an axis for each qubit and
-- one more for its columns, and an index below zero counts from the end of them. Without such an
-- index a gate is lifted just when its matrix fits the listed qubits and these are distinct qubits
-- of the register. An index below zero may stand for a qubit, for the columns of a single qubit,
-- or for an axis that another index stands for; only the last one is refused, and what is not an
-- axis.
import QuantumGates.Datum.Grid
import QuantumGates.Proofs.Register.Product
import QuantumGates.Proofs.Results

namespace QuantumGates

/-! ## Axes of a register -/

namespace Axis

variable {R : Type} {n : ℕ} {i j : ℤ}

/-- The place that an index stands for: that of a qubit, or `n` for the columns. -/
def place (n : ℕ) (i : ℤ) : ℕ := (i % (n + 1 : ℤ)).toNat

theorem place_lt (n : ℕ) (i : ℤ) : place n i < n + 1 := by
  have hlow := Int.emod_nonneg i (b := (n + 1 : ℤ)) (by omega)
  have hhigh := Int.emod_lt_of_pos i (b := (n + 1 : ℤ)) (by omega)
  unfold place
  omega

theorem cast_place (n : ℕ) (i : ℤ) : (place n i : ℤ) = i % (n + 1 : ℤ) :=
  Int.toNat_of_nonneg (Int.emod_nonneg i (by omega))

theorem place_of_nonneg (hlow : 0 ≤ i) (hhigh : i < n) : place n i = i.toNat := by
  unfold place
  rw [Int.emod_eq_of_lt hlow (by omega)]

theorem place_of_neg (hlow : -(n + 1 : ℤ) ≤ i) (hneg : i < 0) :
    (place n i : ℤ) = i + n + 1 := by
  rw [cast_place, ← Int.add_emod_right, Int.emod_eq_of_lt (by omega) (by omega), add_assoc]

/-- The axis at a place. -/
def atPlace (n p : ℕ) : Axis := if p < n then .qubit p else .columns

theorem atPlace_inj {p q : ℕ} (hp : p < n + 1) (hq : q < n + 1) :
    atPlace n p = atPlace n q ↔ p = q := by
  unfold atPlace
  split <;> split <;> simp <;> omega

/-- The index stands for an axis that is as long as a qubit. -/
structure Meant (n : ℕ) (i : ℤ) : Prop where
  low : -(n + 1 : ℤ) ≤ i
  high : i < n
  columns : i = -1 → n = 1

theorem ofIndex_below (h : i < -(n + 1 : ℤ)) :
    (ofIndex n i : Except (Fault R) Axis) = .error .outOfBounds := by
  unfold ofIndex
  exact if_pos (.inl (by omega))

theorem ofIndex_eq (hlow : -(n + 1 : ℤ) ≤ i) (hhigh : i < n) :
    (ofIndex n i : Except (Fault R) Axis) =
      if i = -1 ∧ n ≠ 1 then .error .wrongValue else .ok (atPlace n (place n i)) := by
  have hplace : (if i < 0 then i + n + 1 else i) = (place n i : ℤ) := by
    split
    · rename_i hneg
      exact (place_of_neg hlow hneg).symm
    · rename_i hneg
      rw [place_of_nonneg (not_lt.mp hneg) hhigh, Int.toNat_of_nonneg (not_lt.mp hneg)]
  have hlast : i = -1 ↔ ¬ place n i < n := by omega
  have hbound := place_lt n i
  unfold ofIndex atPlace
  simp only [hplace, hlast]
  rw [if_neg (by omega)]
  by_cases hqubit : place n i < n
  · rw [if_pos (by omega), if_neg fun h => h.1 hqubit, if_pos hqubit, Int.toNat_natCast]
  · rw [if_neg (by omega), if_neg hqubit]
    by_cases hn : n = 1
    · rw [if_pos hn, if_neg fun h => h.2 hn]
    · rw [if_neg hn, if_pos ⟨hqubit, hn⟩]

theorem ofIndex_eq_ok_iff {a : Axis} (hhigh : i < n) :
    (ofIndex n i : Except (Fault R) Axis) = .ok a ↔
      Meant n i ∧ atPlace n (place n i) = a := by
  by_cases hlow : -(n + 1 : ℤ) ≤ i
  · rw [ofIndex_eq hlow hhigh]
    split
    · rename_i h
      exact iff_of_false nofun fun hmeant => h.2 (hmeant.1.columns h.1)
    · rename_i h
      rw [Except.ok.injEq]
      exact (and_iff_right ⟨hlow, hhigh, fun hi => not_not.mp fun hn => h ⟨hi, hn⟩⟩).symm
  · rw [ofIndex_below (not_le.mp hlow)]
    exact iff_of_false nofun fun hmeant => hlow hmeant.1.low

theorem ofIndex_eq_error {fault : Fault R} (hhigh : i < n)
    (h : (ofIndex n i : Except (Fault R) Axis) = .error fault) :
    fault = .wrongValue ∧ i < 0 ∨ fault = .outOfBounds ∧ i < -(n + 1 : ℤ) := by
  by_cases hlow : -(n + 1 : ℤ) ≤ i
  · rw [ofIndex_eq hlow hhigh] at h
    split at h
    · rename_i hcolumns
      cases h
      exact .inl ⟨rfl, by omega⟩
    · cases h
  · rw [ofIndex_below (not_le.mp hlow)] at h
    cases h
    exact .inr ⟨rfl, not_le.mp hlow⟩

/-- A list of indices stands for the axes at their places. -/
theorem mapM_ofIndex_eq_ok_iff {is : List ℤ} {axes : List Axis} (hhigh : ∀ i ∈ is, i < n) :
    is.mapM (m := Except (Fault R)) (ofIndex n) = .ok axes ↔
      (∀ i ∈ is, Meant n i) ∧ (is.map (place n)).map (atPlace n) = axes := by
  rw [mapM_eq_ok_iff, List.map_map, ← List.forall₂_eq_eq_eq, List.forall₂_map_left_iff,
    ← List.forall₂_and_left]
  induction is generalizing axes with
  | nil => cases axes <;> simp
  | cons i is ih =>
    cases axes with
    | nil => simp
    | cons a axes =>
      rw [List.forall₂_cons, List.forall₂_cons, ofIndex_eq_ok_iff (hhigh i List.mem_cons_self),
        ih fun j hj => hhigh j (List.mem_cons_of_mem i hj)]
      exact Iff.rfl

/-- Indices stand for distinct axes just when their places are distinct. -/
theorem nodup_map_atPlace {is : List ℤ} :
    ((is.map (place n)).map (atPlace n)).Nodup ↔ (is.map (place n)).Nodup := by
  refine ⟨List.Nodup.of_map _, List.Nodup.map_on fun p hp q hq hpq => ?_⟩
  obtain ⟨i, -, rfl⟩ := List.mem_map.mp hp
  obtain ⟨j, -, rfl⟩ := List.mem_map.mp hq
  exact (atPlace_inj (place_lt n i) (place_lt n j)).mp hpq

/-- The places of indices of qubits are these qubits. -/
theorem map_place_of_nonneg {is : List ℤ} (hlow : ∀ i ∈ is, 0 ≤ i) (hhigh : ∀ i ∈ is, i < n) :
    is.map (place n) = is.map Int.toNat :=
  List.map_congr_left fun i hi => place_of_nonneg (hlow i hi) (hhigh i hi)

theorem nodup_map_toNat {is : List ℤ} (hlow : ∀ i ∈ is, 0 ≤ i) :
    (is.map Int.toNat).Nodup ↔ is.Nodup := by
  refine ⟨List.Nodup.of_map _, List.Nodup.map_on fun i hi j hj hij => ?_⟩
  have := hlow i hi
  have := hlow j hj
  omega

end Axis

/-! ## Lifting along axes -/

section

variable {K : Type} [Zero K] [One K] [Add K] [Mul K] {R : Type} {m : Mat K} {is : List ℤ} {n : ℕ}

/-- Along the axes of qubits no column is touched. -/
theorem Axis.replace_qubits (n : ℕ) (qs : List ℕ) (j r c : ℕ) :
    Axis.replace n (qs.map .qubit) j (r, c) = (replaceBits n qs j r, c) := by
  induction qs generalizing r with
  | nil => rfl
  | cons q qs ih =>
    rw [List.map_cons, Axis.replace, Axis.set, ih, replaceBits, List.length_map]

theorem contractAxes_qubits (m : Mat K) (qs : List ℕ) (n : ℕ) :
    contractAxes m (qs.map .qubit) n = liftGate m qs n := by
  unfold contractAxes liftGate packBits
  simp only [Axis.replace_qubits, List.foldl_map, List.length_map, Axis.bit]

/-- The checks of `embedAt`, in order. -/
theorem embedAt_eq (m : Mat K) (is : List ℤ) (n : ℕ) :
    (embedAt m is n : Except (Fault R) (Mat K)) =
      if ¬ m.IsSquare (2 ^ is.length) then .error (.matrixShape m.shape is.length)
      else if ¬ is.Nodup then .error (.repeatedQubits is)
      else if ¬ ∀ i ∈ is, i < n then .error (.qubitsBeyond is n)
      else is.mapM (Axis.ofIndex n) >>= fun axes =>
        if ¬ axes.Nodup then .error .wrongValue else .ok (contractAxes m axes n) := by
  have hshape : ¬ m.IsSquare (2 ^ is.length) ↔
      m.rows ≠ 2 ^ is.length ∨ m.cols ≠ 2 ^ is.length := not_and_or
  have hany : (is.any fun i => decide ((n : ℤ) ≤ i)) = true ↔ ¬ ∀ i ∈ is, i < n := by
    simp only [List.any_eq_true, decide_eq_true_eq, not_forall, not_lt, exists_prop]
  have hn : ¬ (n : ℤ) < 0 := by omega
  have hguards : (embedAt m is n : Except (Fault R) (Mat K)) =
      if m.rows ≠ 2 ^ is.length ∨ m.cols ≠ 2 ^ is.length then
        .error (.matrixShape m.shape is.length)
      else if ¬ is.Nodup then .error (.repeatedQubits is)
      else if (is.any fun i => decide ((n : ℤ) ≤ i)) = true then .error (.qubitsBeyond is n)
      else if (n : ℤ) < 0 then .error .wrongType
      else is.mapM (Axis.ofIndex n) >>= fun axes =>
        if ¬ axes.Nodup then .error .wrongValue else .ok (contractAxes m axes n) := rfl
  rw [hguards, if_neg hn]
  exact if_congr hshape.symm rfl (if_congr Iff.rfl rfl (if_congr hany rfl rfl))

/-- Indices stand for distinct axes, each as long as a qubit. -/
structure Axis.AreDistinct (is : List ℤ) (n : ℕ) : Prop where
  meant : ∀ i ∈ is, Axis.Meant n i
  places : (is.map (Axis.place n)).Nodup

theorem Axis.areDistinct_iff_of_nonneg (hlow : ∀ i ∈ is, 0 ≤ i) :
    Axis.AreDistinct is n ↔ is.Nodup ∧ ∀ i ∈ is, i < n := by
  constructor
  · intro h
    have hhigh (i : ℤ) (hi : i ∈ is) : i < n := (h.meant i hi).high
    refine ⟨?_, hhigh⟩
    rw [← Axis.nodup_map_toNat hlow, ← Axis.map_place_of_nonneg hlow hhigh]
    exact h.places
  · rintro ⟨hd, hhigh⟩
    refine ⟨fun i hi => ⟨?_, hhigh i hi, ?_⟩, ?_⟩
    · have := hlow i hi
      omega
    · have := hlow i hi
      omega
    · rwa [Axis.map_place_of_nonneg hlow hhigh, Axis.nodup_map_toNat hlow]

/-- Distinct indices stand for the same place only if one of them is below zero. -/
theorem Axis.exists_neg_of_not_nodup (hd : is.Nodup) (hhigh : ∀ i ∈ is, i < n)
    (h : ¬ (is.map (Axis.place n)).Nodup) : ∃ i ∈ is, i < 0 := by
  by_contra! hlow
  exact h ((Axis.areDistinct_iff_of_nonneg hlow).mpr ⟨hd, hhigh⟩).places

/-- A gate is lifted just when its matrix fits the number of indices and these stand for distinct
axes. -/
theorem embedAt_eq_ok_iff {u : Mat K} :
    (embedAt m is n : Except (Fault R) (Mat K)) = .ok u ↔
      (m.IsSquare (2 ^ is.length) ∧ Axis.AreDistinct is n) ∧
        contractAxes m ((is.map (Axis.place n)).map (Axis.atPlace n)) n = u := by
  rw [embedAt_eq]
  by_cases hm : m.IsSquare (2 ^ is.length)
  · rw [if_neg (not_not.mpr hm)]
    by_cases hd : is.Nodup
    · rw [if_neg (not_not.mpr hd)]
      by_cases hhigh : ∀ i ∈ is, i < n
      · rw [if_neg (not_not.mpr hhigh), bind_eq_ok_iff]
        simp only [Axis.mapM_ofIndex_eq_ok_iff hhigh]
        constructor
        · rintro ⟨axes, ⟨hmeant, rfl⟩, h⟩
          split at h
          · cases h
          · rename_i hplaces
            cases h
            exact ⟨⟨hm, hmeant, Axis.nodup_map_atPlace.mp (not_not.mp hplaces)⟩, rfl⟩
        · rintro ⟨⟨-, h⟩, rfl⟩
          exact ⟨_, ⟨h.meant, rfl⟩,
            if_neg (not_not.mpr (Axis.nodup_map_atPlace.mpr h.places))⟩
      · rw [if_pos hhigh]
        exact iff_of_false nofun fun h => hhigh fun i hi => (h.1.2.meant i hi).high
    · rw [if_pos hd]
      exact iff_of_false nofun fun h => hd h.1.2.places.of_map
  · rw [if_pos hm]
    exact iff_of_false nofun fun h => hm h.1.1

/-- Without an index below zero a gate is lifted to the qubits that the indices name. -/
theorem eq_liftGate_of_embedAt {u : Mat K} (hlow : ∀ i ∈ is, 0 ≤ i)
    (h : (embedAt m is n : Except (Fault R) (Mat K)) = .ok u) :
    u = liftGate m (is.map Int.toNat) n := by
  obtain ⟨⟨-, hdistinct⟩, rfl⟩ := embedAt_eq_ok_iff.mp h
  have hhigh (i : ℤ) (hi : i ∈ is) : i < n := (hdistinct.meant i hi).high
  have haxes : (is.map (Axis.place n)).map (Axis.atPlace n) =
      (is.map Int.toNat).map Axis.qubit := by
    rw [Axis.map_place_of_nonneg hlow hhigh, List.map_map, List.map_map]
    refine List.map_congr_left fun i hi => if_pos ?_
    have := hlow i hi
    have := hhigh i hi
    omega
  rw [haxes, contractAxes_qubits]

/-- Why a gate is not lifted. -/
theorem embedAt_eq_error {fault : Fault R}
    (h : (embedAt m is n : Except (Fault R) (Mat K)) = .error fault) :
    (fault = .matrixShape m.shape is.length ∧ ¬ m.IsSquare (2 ^ is.length)) ∨
      (fault = .repeatedQubits is ∧ ¬ is.Nodup) ∨
      (fault = .qubitsBeyond is n ∧ ∃ i ∈ is, n ≤ i) ∨
      (fault = .wrongValue ∧ ∃ i ∈ is, i < 0) ∨
      fault = .outOfBounds ∧ ∃ i ∈ is, i < -(n + 1 : ℤ) := by
  rw [embedAt_eq] at h
  split at h
  · rename_i hm
    cases h
    exact .inl ⟨rfl, hm⟩
  · split at h
    · rename_i hd
      cases h
      exact .inr (.inl ⟨rfl, hd⟩)
    · split at h
      · rename_i hhigh
        cases h
        push Not at hhigh
        exact .inr (.inr (.inl ⟨rfl, hhigh⟩))
      · rename_i hd hhigh
        refine .inr (.inr (.inr ?_))
        rw [not_not] at hd hhigh
        rcases bind_eq_error h with hindex | ⟨axes, haxes, h⟩
        · obtain ⟨i, hi, hfault⟩ := exists_of_mapM_eq_error hindex
          rcases Axis.ofIndex_eq_error (hhigh i hi) hfault with ⟨rfl, hneg⟩ | ⟨rfl, hlow⟩
          · exact .inl ⟨rfl, i, hi, hneg⟩
          · exact .inr ⟨rfl, i, hi, hlow⟩
        · obtain ⟨hmeant, rfl⟩ := (Axis.mapM_ofIndex_eq_ok_iff hhigh).mp haxes
          split at h
          · rename_i hplaces
            cases h
            refine .inl ⟨rfl, Axis.exists_neg_of_not_nodup hd hhigh fun hnodup => ?_⟩
            exact hplaces (Axis.nodup_map_atPlace.mpr hnodup)
          · cases h

end

/-! ## Lifting a grid -/

/-- A matrix is what its grid is read as. -/
theorem Grid.matrix?_ofMatrix (m : CMat Float) : (Grid.ofMatrix m).matrix? = some m := by
  refine congrArg some (Mat.ext_get rfl rfl fun r hr c hc => ?_)
  have hr : r < m.rows := hr
  have hc : c < m.cols := hc
  have hcells : (Grid.ofMatrix m).cells.toArray = m.entries := Array.toArray_toList
  rw [Mat.get_ofFn _ hr hc, hcells, Mat.get, if_pos hc]

theorem mapM_index_integer (is : List ℤ) :
    (is.map Datum.integer).mapM Datum.index = .ok is := by
  rw [mapM_eq_ok_iff, List.forall₂_map_left_iff, List.forall₂_same]
  exact fun i _ => rfl

theorem Grid.embed_ofMatrix (m : CMat Float) (is : List ℤ) (n : ℕ) :
    (Grid.ofMatrix m).embed (.list (is.map .integer)) (.integer n) = embedAt m is n := by
  have hembed : (Grid.ofMatrix m).embed (.list (is.map .integer)) (.integer n) =
      if m.rows ≠ 2 ^ (is.map Datum.integer).length ∨
          m.cols ≠ 2 ^ (is.map Datum.integer).length then
        .error (.matrixShape m.shape (is.map Datum.integer).length)
      else (is.map Datum.integer).mapM Datum.index >>= fun indices => embedAt m indices n := by
    unfold Grid.embed
    simp only [Grid.matrix?_ofMatrix]
    rfl
  rw [hembed, List.length_map, mapM_index_integer]
  by_cases hm : m.IsSquare (2 ^ is.length)
  · rw [if_neg (not_or.mpr ⟨not_not.mpr hm.1, not_not.mpr hm.2⟩)]
    rfl
  · rw [if_pos (not_and_or.mp hm), embedAt_eq, if_pos hm]

/-- Which indices a gate is lifted by. Those that are not below zero must be distinct qubits of the
register, as many as the matrix fits, and the gate is lifted to them; else the fault tells which of
this fails. Of the others, any is taken that stands for an axis as long as a qubit. -/
theorem embedding_by_indices (m : CMat Float) (is : List ℤ) (n : ℕ) :
    let answer := (Grid.ofMatrix m).embed (.list (is.map .integer)) (.integer n)
    ((∃ u, answer = .ok u) ↔ m.IsSquare (2 ^ is.length) ∧ Axis.AreDistinct is n) ∧
      (∀ fault, answer = .error fault →
        (fault = .matrixShape m.shape is.length ∧ ¬ m.IsSquare (2 ^ is.length)) ∨
        (fault = .repeatedQubits is ∧ ¬ is.Nodup) ∨
        (fault = .qubitsBeyond is n ∧ ∃ i ∈ is, n ≤ i) ∨
        (fault = .wrongValue ∧ ∃ i ∈ is, i < 0) ∨
        fault = .outOfBounds ∧ ∃ i ∈ is, i < -(n + 1 : ℤ)) ∧
      ((∀ i ∈ is, 0 ≤ i) →
        ((∃ u, answer = .ok u) ↔
          m.IsSquare (2 ^ is.length) ∧ is.Nodup ∧ ∀ i ∈ is, 0 ≤ i ∧ i < n) ∧
        (∀ u, answer = .ok u → u = liftGate m (is.map Int.toNat) n) ∧
        ∀ fault, answer = .error fault →
          fault = .matrixShape m.shape is.length ∨ fault = .repeatedQubits is ∨
          fault = .qubitsBeyond is n) := by
  intro answer
  have hanswer : answer = embedAt m is n := Grid.embed_ofMatrix m is n
  rw [hanswer]
  have hok : (∃ u, (embedAt m is n : Except (Fault Float) (CMat Float)) = .ok u) ↔
      m.IsSquare (2 ^ is.length) ∧ Axis.AreDistinct is n := by
    simp only [embedAt_eq_ok_iff, exists_and_left, exists_eq', and_true]
  refine ⟨hok, fun _ => embedAt_eq_error, fun hlow => ⟨?_, ?_, ?_⟩⟩
  · rw [hok, Axis.areDistinct_iff_of_nonneg hlow]
    refine and_congr_right fun _ => and_congr_right fun _ => forall₂_congr fun i hi => ?_
    exact (and_iff_right (hlow i hi)).symm
  · exact fun u h => eq_liftGate_of_embedAt hlow h
  · intro fault h
    rcases embedAt_eq_error h with
      ⟨rfl, -⟩ | ⟨rfl, -⟩ | ⟨rfl, -⟩ | ⟨-, i, hi, hneg⟩ | ⟨-, i, hi, hneg⟩
    · exact .inl rfl
    · exact .inr (.inl rfl)
    · exact .inr (.inr rfl)
    · exact absurd (hlow i hi) (by omega)
    · exact absurd (hlow i hi) (by omega)

/-- No register has a qubit -1, but by that index the columns of a single qubit are taken for one,
and the gate comes out transposed. The index -3 is refused as no axis of the register. -/
theorem embedding_along_columns :
    let g := Grid.ofMatrix (Mat.ofRows [[⟨1, 0⟩, ⟨2, 0⟩], [⟨3, 0⟩, ⟨4, 0⟩]])
    (∃ u, g.embed (.list [.integer (-1)]) (.integer 1) = .ok u ∧
      u.entries = #[⟨1, 0⟩, ⟨3, 0⟩, ⟨2, 0⟩, ⟨4, 0⟩]) ∧
    g.embed (.list [.integer (-3)]) (.integer 1) = .error .outOfBounds := by
  have hdistinct : Axis.AreDistinct [-1] 1 := ⟨by simp [Axis.Meant.mk], List.nodup_singleton _⟩
  refine ⟨⟨_, (Grid.embed_ofMatrix _ [-1] 1).trans
    (embedAt_eq_ok_iff.mpr ⟨⟨⟨rfl, rfl⟩, hdistinct⟩, rfl⟩), ?_⟩, ?_⟩
  · decide +kernel
  · exact (Grid.embed_ofMatrix _ [-3] 1).trans rfl

end QuantumGates
