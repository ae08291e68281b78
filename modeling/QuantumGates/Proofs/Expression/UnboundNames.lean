-- Names that are left without a value. They are variables of the formula, so they are identifiers
-- among the words of the text, and they are told once each in the order of the alphabet. A table
-- takes those of them that are written in ASCII; once it has all of them, the text is never again
-- refused for a name without a value. An identifier in another script can be read but not bound.
import QuantumGates.Proofs.Expression.BoundNames
import QuantumGates.Proofs.Gate.SubstitutionFaults

namespace QuantumGates

/-! ## Identifiers -/

/-- A name as the words of a text have it, in any script. -/
def isIdentifier : List Char → Bool
  | [] => false
  | c :: s => isIdentifierStart c && s.all isIdentifierPart

section

variable {p : Char → Prop} {s rest : List Char} {id : String}

end

/-! ## The order of the alphabet -/

/-- Names in the order of the alphabet. -/
def inOrder (names : List String) : List String := names.mergeSort fun a b => decide (a ≤ b)

namespace Formula

variable {text : String} {f : Formula}

end Formula

/-! ## Texts with names that have no value -/

section

variable {lookup : String → Option Float} {text : String} {names : List String}

end

namespace Bindings

variable {b b' : Bindings Float}

end Bindings

end QuantumGates
