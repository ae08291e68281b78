-- Formulas with other variables. Variables are counted in the order in which they come, so other
-- names leave the normal form as it is, and with it the value. Only the names that are told to need
-- one change, and as they are told in the order of the alphabet, their places may change, too.
import QuantumGates.Proofs.Expression.RenamedTrees
import QuantumGates.Proofs.Expression.UnboundNames

namespace QuantumGates

/-! ## The order of the alphabet -/

section

variable {names names' : List String}

end

/-- What is told with other variables where there is no value. -/
def NoValue.renamed (r : String → String) : NoValue → NoValue
  | .unbound names => .unbound (inOrder (names.map r))
  | reason => reason

/-! ## Variables -/

namespace Formula

variable {r : String → String} {f : Formula}

/-- No two variables of a formula get the same name. -/
def KeepsApart (r : String → String) (names : List String) : Prop :=
  ∀ a ∈ names, ∀ b ∈ names, r a = r b → a = b

theorem KeepsApart.contains {names : List String} {name : String}
    (h : KeepsApart r (name :: names)) : (names.map r).contains (r name) = names.contains name := by
  rw [Bool.eq_iff_iff, List.contains_iff_mem, List.contains_iff_mem, List.mem_map]
  constructor
  · rintro ⟨id, hid, heq⟩
    have hname := h id (List.mem_cons_of_mem name hid) name List.mem_cons_self heq
    exact hname ▸ hid
  · intro hmem
    exact ⟨name, hmem, rfl⟩

theorem KeepsApart.idxOf {names : List String} {name : String} (h : KeepsApart r names)
    (hname : name ∈ names) : (names.map r).idxOf (r name) = names.idxOf name := by
  induction names with
  | nil => cases hname
  | cons id names ih =>
    by_cases hid : id = name
    · subst hid
      simp
    · have hne : r id ≠ r name := fun heq => hid (h id List.mem_cons_self name hname heq)
      have hrest : name ∈ names := (List.mem_cons.mp hname).resolve_left fun heq => hid heq.symm
      have happart : KeepsApart r names := fun a ha b hb =>
        h a (List.mem_cons_of_mem id ha) b (List.mem_cons_of_mem id hb)
      rw [List.map_cons, List.idxOf_cons_ne _ hne, List.idxOf_cons_ne _ hid, ih happart hrest]

end Formula

end QuantumGates
