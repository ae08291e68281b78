-- The tree of an expression, before anything is known about its meaning. Every construct of
-- the grammar has a node; `firstRefused` says whether a tree is plain arithmetic, and if not,
-- which node is the first one that is not, level after level from the root.
import QuantumGates.Expression.Names
import QuantumGates.Number.Reading

namespace QuantumGates

/-- The signs of arithmetic. -/
inductive Operator
  | add | sub | mul | div | pow
  /-- The caret, read as exclusive or. -/
  | xor
  | positive | negative
deriving DecidableEq, Repr

/-- What a node is. An operator is a node of its own. -/
inductive NodeKind
  | name (id : String)
  | whole (n : Nat)
  | decimal (d : Decimal)
  /-- An operator and its operand. -/
  | unary
  /-- An operand, an operator and an operand. -/
  | binary
  | operator (o : Operator)
  /-- What is called and its arguments, with or without arguments given by name. -/
  | call (named : Bool)
  /-- Any other construct, with the name of its class. -/
  | other (label : String)
deriving DecidableEq, Repr

inductive Node
  | mk (kind : NodeKind) (parts : List Node)

namespace Node

def kind : Node → NodeKind
  | mk k _ => k

def parts : Node → List Node
  | mk _ ps => ps

/-- A node without parts. -/
def leaf (k : NodeKind) : Node := mk k []

def other (label : String) (ps : List Node) : Node := mk (.other label) ps

/-- The name that a node is. -/
def name? : Node → Option String
  | mk (.name id) _ => some id
  | _ => none

mutual

/-- The number of levels of a tree. -/
def height : Node → Nat
  | mk _ ps => heights ps + 1

/-- The number of levels of the highest of several trees. -/
def heights : List Node → Nat
  | [] => 0
  | n :: ns => max n.height (heights ns)

end

/-! ## Arithmetic -/

/-- Whether what is called is a known function by its name. -/
def callsFunction : List Node → Bool
  | [] => false
  | f :: _ => (f.name?.bind Fn.ofName?).isSome

/-- Why a node is no arithmetic by itself: the name of its class. -/
def refusal? : Node → Option String
  | mk (.name id) _ => if id.startsWith "__" then some "Name" else none
  | mk (.call named) ps => if named || !callsFunction ps then some "Call" else none
  | mk (.other label) _ => some label
  | _ => none

/-- The first refused node of the next `n` levels. -/
def refusedWithin : Nat → List Node → Option String
  | 0, _ => none
  | n + 1, level =>
    match level.findSome? refusal? with
    | some label => some label
    | none => refusedWithin n (level.flatMap parts)

/-- The first refused node of a tree. -/
def firstRefused (n : Node) : Option String := refusedWithin n.height [n]

end Node

end QuantumGates
