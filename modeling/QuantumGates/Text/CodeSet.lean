-- Sets of characters given by a property of the Unicode standard, version 14. A set is kept
-- as the rising list of the code points where membership changes.
namespace QuantumGates

/-- A code point is in the set when an odd number of edges lie at or below it. -/
structure CodeSet where
  edges : Array Nat

namespace CodeSet

def hasCode (s : CodeSet) (n : Nat) : Bool :=
  s.edges.foldl (fun inside e => if e ≤ n then !inside else inside) false

def has (s : CodeSet) (c : Char) : Bool := s.hasCode c.toNat

end CodeSet

/-- The characters from `lo` to `hi`. -/
def Char.within (c lo hi : Char) : Bool := decide (lo ≤ c) && decide (c ≤ hi)

def isAsciiDigit (c : Char) : Bool := Char.within c '0' '9'
def isAsciiLetter (c : Char) : Bool := Char.within c 'a' 'z' || Char.within c 'A' 'Z'

end QuantumGates
