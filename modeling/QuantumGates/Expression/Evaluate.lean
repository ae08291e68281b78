-- The value of a formula under a table of variables. The formula is first brought to normal
-- form, so that a variable which cancels needs no value; then the variables that are left are
-- replaced by numbers. Only a finite real result is a value.
import QuantumGates.Expression.Formula
import QuantumGates.Expression.Functions

namespace QuantumGates

/-- A constant as a term. -/
def Constant.term : Constant → Term
  | .pi => .pi
  | .infinity => .infinity
  | .undefined => .undefined

namespace Formula

/-- The normal form of a formula, its variables counted as `index` says. -/
def term (index : String → Nat) : Formula → Term
  | whole n => .ofRat n
  | decimal d => .ofQuantity (.ofDecimal d)
  | constant c => c.term
  | var name => .var (index name)
  | negate x =>
    match x.term index with
    | .number n => .number n.neg
    | t => Term.build.neg t
  | binary o x y =>
    let s := x.term index
    let t := y.term index
    match o with
    | .add => Term.build.sum [s, t]
    | .sub => Term.build.sum [s, Term.build.neg t]
    | .mul => Term.build.product [s, t]
    | .div => Term.build.div s t
    | .pow => Term.build.power s t
  | call f x => Term.build.call f (x.term index)
  | call₂ f x y => Term.build (.apply f) [x.term index, y.term index]

/-- The normal form, variables counted in the order in which they come. -/
def normal (x : Formula) : Term := x.term fun name => x.names.idxOf name

/-- The names of the variables that the normal form holds, in the order of the alphabet. -/
def needed (x : Formula) : List String :=
  let left := x.normal.unknowns
  let names := x.names.zipIdx.filterMap fun (name, k) => if left.contains k then some name else none
  names.mergeSort fun a b => decide (a ≤ b)

end Formula

/-- The finite real number that a term without variables stands for. -/
def Term.finiteFloat? (t : Term) : Option Float :=
  match t.value? with
  | none => none
  | some z =>
    let x := (z.re.round Quantity.doubleDigits).toFloat
    if z.isReal && x.isFinite then some x else none

/-- The value of a formula, `lookup` being the table of variables. -/
def Formula.value (lookup : String → Option Float) (x : Formula) : Except NoValue Float :=
  let unbound := x.needed.filter fun name => (lookup name).isNone
  if !unbound.isEmpty then .error (.unbound unbound)
  else
    let value (k : Nat) : Extended :=
      match x.names[k]?.bind lookup with
      | some v => .ofFloat v
      | none => .undefined
    match (x.normal.substitute value).finiteFloat? with
    | some v => .ok v
    | none => .error .notFinite

/-- The value of a text under a table of variables. -/
def evaluateText (lookup : String → Option Float) (text : String) : Except NoValue Float :=
  (Formula.read text).bind (Formula.value lookup)

end QuantumGates
