-- Arithmetic over numbers, constants and named variables. A tree of the grammar is a formula if
-- every function has its arguments and stands nowhere else; the names of functions and of kinds
-- of numbers are the only ones that are no variables or constants.
import QuantumGates.Expression.Reader
import QuantumGates.Fault

namespace QuantumGates

/-- An operation on two operands. -/
inductive Dyadic
  | add | sub | mul | div | pow
deriving DecidableEq, Repr

inductive Formula
  | whole (n : Nat)
  | decimal (d : Decimal)
  | constant (c : Constant)
  | var (name : String)
  | negate (x : Formula)
  | binary (o : Dyadic) (x y : Formula)
  | call (f : Fn) (x : Formula)
  | call₂ (f : Fn) (x y : Formula)
deriving DecidableEq, Repr

/-- What a node of the grammar means: a value, a name that is none, or an operator. -/
inductive Meaning
  | value (x : Formula)
  | function (f : Fn)
  | numberKind
  | operator (o : Operator)

namespace Meaning

/-- What a name means. -/
def ofName (name : String) : Meaning :=
  match Fn.ofName? name, Constant.ofName? name with
  | some f, _ => function f
  | none, some c => value (.constant c)
  | none, none => if numberKindNames.contains name then numberKind else value (.var name)

/-- An operator before an operand. -/
def unary : Operator → Formula → Option Meaning
  | .positive, x => some (value x)
  | .negative, x => some (value (.negate x))
  | _, _ => none

/-- An operator between two operands. -/
def binary (x : Formula) (o : Operator) (y : Formula) : Option Meaning :=
  let of (o : Dyadic) := some (value (.binary o x y))
  match o with
  | .add => of .add
  | .sub => of .sub
  | .mul => of .mul
  | .div => of .div
  | .pow => of .pow
  | _ => none

/-- A call of a function. -/
def call (f : Fn) : List Meaning → Option Meaning
  | [value x] => if f.takes 1 then some (value (.call f x)) else none
  | [value x, value y] => if f.takes 2 then some (value (.call₂ f x y)) else none
  | _ => none

/-- What a node means, given what its parts mean. -/
def ofParts : NodeKind → List Meaning → Option Meaning
  | .name id, _ => some (ofName id)
  | .whole n, _ => some (value (.whole n))
  | .decimal d, _ => some (value (.decimal d))
  | .operator o, _ => some (operator o)
  | .unary, [operator o, value x] => unary o x
  | .binary, [value x, operator o, value y] => binary x o y
  | .call false, function f :: xs => call f xs
  | _, _ => none

end Meaning

mutual

/-- What a tree means, if it is arithmetic with complete calls. -/
def Node.meaning? : Node → Option Meaning
  | .mk kind parts => (meanings? parts).bind (Meaning.ofParts kind)

/-- What several trees mean. -/
def Node.meanings? : List Node → Option (List Meaning)
  | [] => some []
  | n :: ns =>
    match Node.meaning? n, Node.meanings? ns with
    | some m, some ms => some (m :: ms)
    | _, _ => none

end

/-! ## Reading a formula -/

/-- The formula that a tree of arithmetic is. The bare name of a function is none. -/
def Formula.ofNode (node : Node) : Except NoValue Formula :=
  match node.meaning? with
  | some (.value x) => .ok x
  | some (.function _) | some .numberKind => .error (.notArithmetic none)
  | _ => .error .malformed

/-- The formula that a text stands for, its brackets nested within a limit if there is one. The
text is read twice: the reading that takes a caret for exclusive or says whether it is
arithmetic, the one that takes it for a power says what it means. For the latter the numbers are
written as calls, and the brackets of these count as well. -/
def Formula.readWithin (limit : Option Nat) (text : String) : Except NoValue Formula :=
  match tokensWithin? limit text with
  | none => .error .malformed
  | some ts =>
    match Node.checked? ts with
    | none => .error .malformed
    | some checked =>
      match checked.firstRefused with
      | some label => .error (.notArithmetic (some label))
      | none =>
        if exceeds limit (deepest 0 ts) then .error .malformed
        else
          match Node.evaluated? ts with
          | none => .error .malformed
          | some node => Formula.ofNode node

/-- The formula that a text stands for. -/
def Formula.read (text : String) : Except NoValue Formula :=
  Formula.readWithin (some deepestBracket) text

namespace Formula

/-- The names of the variables, each at its first place, those already met left out. -/
def namesFrom (met : List String) : Formula → List String
  | var name => if met.contains name then met else met ++ [name]
  | negate x => namesFrom met x
  | binary _ x y => namesFrom (namesFrom met x) y
  | call _ x => namesFrom met x
  | call₂ _ x y => namesFrom (namesFrom met x) y
  | _ => met

/-- The names of the variables in the order in which they come. -/
def names (x : Formula) : List String := namesFrom [] x

end Formula

end QuantumGates
