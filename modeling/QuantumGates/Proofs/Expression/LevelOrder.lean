-- The order in which the nodes of a tree are checked. A place tells the way to a node from the
-- root. Places with fewer steps come first, and those with the same number of steps in the order
-- in which the parts are listed. Level after level, the check meets the nodes in the order of their
-- places; so the class it names is that of the first refused node in this order.
import Mathlib.Data.List.Basic
import QuantumGates.Proofs.Expression.Tree

namespace QuantumGates

namespace Node

/-! ## Places -/

/-- The node at a place, which lists the part to take at each step from the root. -/
def at? : Node → List ℕ → Option Node
  | n, [] => some n
  | n, i :: place => n.parts[i]?.bind fun p => p.at? place

/-- Fewer steps from the root, or as many and further to the left. -/
def Before (q p : List ℕ) : Prop := q.length < p.length ∨ q.length = p.length ∧ q < p

theorem height_le_heights {p : Node} {ps : List Node} (h : p ∈ ps) : p.height ≤ heights ps := by
  induction ps with
  | nil => cases h
  | cons n ns ih =>
    rw [heights]
    rcases List.mem_cons.mp h with rfl | h
    · exact Nat.le_max_left _ _
    · exact Nat.le_trans (ih h) (Nat.le_max_right _ _)

/-- A place has fewer steps than the tree has levels. -/
theorem length_lt_height {n m : Node} {place : List ℕ} (h : n.at? place = some m) :
    place.length < n.height := by
  induction place generalizing n with
  | nil =>
    cases n with
    | mk kind parts =>
      rw [height]
      exact Nat.succ_pos _
  | cons i place ih =>
    obtain ⟨p, hp, h⟩ := Option.bind_eq_some_iff.mp h
    have hle := height_le_heights (List.mem_of_getElem? hp)
    have hlt := ih h
    cases n with
    | mk kind parts =>
      rw [Node.parts] at hle
      rw [height, List.length_cons]
      omega

/-! ## Levels -/

/-- The nodes that are `d` steps from the root, in order, with their places. -/
def placed : ℕ → Node → List (List ℕ × Node)
  | 0, n => [([], n)]
  | d + 1, n => n.parts.zipIdx.flatMap fun (p, i) =>
    (placed d p).map fun (place, m) => (i :: place, m)

theorem mem_placed {d : ℕ} {n m : Node} {place : List ℕ} :
    (place, m) ∈ placed d n ↔ place.length = d ∧ n.at? place = some m := by
  induction d generalizing n place with
  | zero =>
    rw [placed, List.mem_singleton, Prod.mk.injEq, List.length_eq_zero_iff]
    constructor
    · rintro ⟨rfl, rfl⟩
      exact ⟨rfl, rfl⟩
    · rintro ⟨rfl, h⟩
      exact ⟨rfl, (Option.some.inj h).symm⟩
  | succ d ih =>
    rw [placed, List.mem_flatMap]
    constructor
    · rintro ⟨⟨p, i⟩, hp, h⟩
      obtain ⟨⟨q, m'⟩, hq, heq⟩ := List.mem_map.mp h
      cases heq
      obtain ⟨hlen, hat⟩ := ih.mp hq
      refine ⟨congrArg Nat.succ hlen, ?_⟩
      rw [at?, List.mem_zipIdx_iff_getElem?.mp hp]
      exact hat
    · rintro ⟨hlen, hat⟩
      cases place with
      | nil => cases hlen
      | cons i q =>
        obtain ⟨p, hp, hat⟩ := Option.bind_eq_some_iff.mp hat
        refine ⟨(p, i), List.mem_zipIdx_iff_getElem?.mpr hp, List.mem_map.mpr ⟨(q, m), ?_, rfl⟩⟩
        exact ih.mpr ⟨Nat.succ.inj hlen, hat⟩

/-- The places of a level grow. -/
theorem pairwise_placed (d : ℕ) (n : Node) :
    (placed d n).Pairwise fun a b => a.1 < b.1 := by
  induction d generalizing n with
  | zero => exact List.pairwise_singleton _ _
  | succ d ih =>
    have hindex : n.parts.zipIdx.Pairwise fun a b => a.2 < b.2 := by
      rw [← List.pairwise_map (f := Prod.snd) (R := (· < ·)), List.zipIdx_map_snd]
      exact List.pairwise_lt_range'
    rw [placed, List.pairwise_flatMap]
    refine ⟨fun a _ => ?_, hindex.imp fun {a b} hab x hx y hy => ?_⟩
    · rw [List.pairwise_map]
      exact (ih a.1).imp fun h => List.cons_lt_cons_iff.mpr (.inr ⟨rfl, h⟩)
    · obtain ⟨-, -, rfl⟩ := List.mem_map.mp hx
      obtain ⟨-, -, rfl⟩ := List.mem_map.mp hy
      exact List.cons_lt_cons_iff.mpr (.inl hab)

/-- The nodes that are `d` steps below those of a level. -/
def levelBelow (d : ℕ) (level : List Node) : List Node :=
  level.flatMap fun n => (placed d n).map Prod.snd

theorem levelBelow_zero (level : List Node) : levelBelow 0 level = level := by
  unfold levelBelow placed
  exact List.flatMap_singleton' level

theorem levelBelow_succ (d : ℕ) (level : List Node) :
    levelBelow (d + 1) level = levelBelow d (level.flatMap parts) := by
  have hparts (n : Node) :
      (placed (d + 1) n).map Prod.snd = n.parts.flatMap fun p => (placed d p).map Prod.snd := by
    conv_rhs => rw [← List.zipIdx_map_fst 0 n.parts]
    rw [placed, List.map_flatMap, List.flatMap_map]
    simp only [List.map_map]
    rfl
  unfold levelBelow
  rw [List.flatMap_assoc]
  simp only [hparts]

/-- The check stops at the first level with a refused node. -/
theorem refusedWithin_eq_some_iff {n : ℕ} {level : List Node} {label : String} :
    refusedWithin n level = some label ↔
      ∃ d < n, (levelBelow d level).findSome? refusal? = some label ∧
        ∀ e < d, (levelBelow e level).findSome? refusal? = none := by
  induction n generalizing level with
  | zero => simp [refusedWithin]
  | succ n ih =>
    rw [refusedWithin]
    cases hlevel : level.findSome? refusal? with
    | some label' =>
      constructor
      · intro h
        cases h
        exact ⟨0, Nat.succ_pos n, by rwa [levelBelow_zero], fun e he => absurd he e.not_lt_zero⟩
      · rintro ⟨d, -, hd, hbefore⟩
        cases d with
        | zero => rwa [levelBelow_zero, hlevel] at hd
        | succ d =>
          have h0 := hbefore 0 (Nat.succ_pos d)
          rw [levelBelow_zero, hlevel] at h0
          cases h0
    | none =>
      simp only [ih]
      constructor
      · rintro ⟨d, hlt, hd, hbefore⟩
        refine ⟨d + 1, Nat.succ_lt_succ hlt, by rwa [levelBelow_succ], fun e he => ?_⟩
        cases e with
        | zero => rwa [levelBelow_zero]
        | succ e =>
          rw [levelBelow_succ]
          exact hbefore e (Nat.lt_of_succ_lt_succ he)
      · rintro ⟨d, hlt, hd, hbefore⟩
        cases d with
        | zero =>
          rw [levelBelow_zero, hlevel] at hd
          cases hd
        | succ d =>
          rw [levelBelow_succ] at hd
          refine ⟨d, Nat.lt_of_succ_lt_succ hlt, hd, fun e he => ?_⟩
          rw [← levelBelow_succ]
          exact hbefore (e + 1) (Nat.succ_lt_succ he)

/-! ## The first refused node -/

theorem findSome?_levelBelow (d : ℕ) (n : Node) :
    (levelBelow d [n]).findSome? refusal? = (placed d n).findSome? fun a => a.2.refusal? := by
  unfold levelBelow
  rw [List.flatMap_singleton, List.findSome?_map]
  rfl

/-- The check names the class of the first refused node in the order of the places. -/
theorem firstRefused_eq_some_iff {n : Node} {label : String} :
    n.firstRefused = some label ↔
      ∃ place m, n.at? place = some m ∧ m.refusal? = some label ∧
        ∀ q m', n.at? q = some m' → Before q place → m'.refusal? = none := by
  unfold firstRefused
  rw [refusedWithin_eq_some_iff]
  simp only [findSome?_levelBelow, List.findSome?_eq_none_iff, Prod.forall, mem_placed]
  constructor
  · rintro ⟨d, -, hd, hbefore⟩
    obtain ⟨l, ⟨place, m⟩, r, hsplit, hm, hl⟩ := List.findSome?_eq_some_iff.mp hd
    have hmem : (place, m) ∈ placed d n := by
      rw [hsplit]
      exact List.mem_append_right l (List.mem_cons_self ..)
    obtain ⟨hlen, hat⟩ := mem_placed.mp hmem
    refine ⟨place, m, hat, hm, fun q m' hq hlt => ?_⟩
    rcases hlt with hlt | ⟨hsame, hlt⟩
    · exact hbefore q.length (hlen ▸ hlt) q m' ⟨rfl, hq⟩
    · -- a place of this level that comes before stands in the part before the refused one
      have hq' : (q, m') ∈ placed d n := mem_placed.mpr ⟨hsame.trans hlen, hq⟩
      have hsorted := pairwise_placed d n
      rw [hsplit] at hq' hsorted
      rcases List.mem_append.mp hq' with h | h
      · exact hl _ h
      · exfalso
        rcases List.mem_cons.mp h with heq | h
        · cases heq
          exact List.lt_irrefl _ hlt
        · have hback := List.rel_of_pairwise_cons (List.pairwise_append.mp hsorted).2.1 h
          exact List.lt_asymm hlt hback
  · rintro ⟨place, m, hat, hm, hbefore⟩
    refine ⟨place.length, length_lt_height hat, ?_, fun e he q m' hq => ?_⟩
    · obtain ⟨l, r, hsplit⟩ := List.append_of_mem (mem_placed.mpr ⟨rfl, hat⟩)
      have hsorted := pairwise_placed place.length n
      rw [hsplit] at hsorted
      refine List.findSome?_eq_some_iff.mpr ⟨l, (place, m), r, hsplit, hm, fun ⟨q, m'⟩ hq => ?_⟩
      have hmem : (q, m') ∈ placed place.length n := by
        rw [hsplit]
        exact List.mem_append_left _ hq
      obtain ⟨hlen, hat'⟩ := mem_placed.mp hmem
      refine hbefore q m' hat' (.inr ⟨hlen, ?_⟩)
      exact (List.pairwise_append.mp hsorted).2.2 _ hq _ (List.mem_cons_self ..)
    · exact hbefore q m' hq.2 (.inl (hq.1 ▸ he))

end Node

end QuantumGates
