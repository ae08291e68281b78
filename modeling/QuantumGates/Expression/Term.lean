-- Terms in normal form: a number, a constant, a variable, or a sum, product, power or function
-- of terms. Variables are counted, not named, so that a name never matters. Sums and products
-- are kept in a fixed order, a number first, so that equal ones look alike.
import QuantumGates.Expression.Names
import QuantumGates.Expression.Quantity

namespace QuantumGates

inductive Term
  | number (n : Extended)
  /-- Half a turn. -/
  | pi
  /-- The base of the natural logarithm. -/
  | e
  /-- The imaginary unit. -/
  | i
  | var (index : Nat)
  | power (base exponent : Term)
  | product (ts : List Term)
  | sum (ts : List Term)
  | apply (f : Fn) (args : List Term)

namespace Term

def ofRat (q : Rat) : Term := number (.ofRat q)
def ofQuantity (q : Quantity) : Term := number (.finite q)
def zero : Term := ofRat 0
def one : Term := ofRat 1
def minusOne : Term := ofRat (-1)
def half : Term := ofRat (1/2)
def undefined : Term := number .undefined
def infinity : Term := number (.infinite false)

def number? : Term → Option Extended
  | number n => some n
  | _ => none

/-- The exact number that a term is. -/
def rat? : Term → Option Rat
  | number (.finite (.exact q)) => some q
  | _ => none

/-- The whole number that a term is. -/
def int? (t : Term) : Option Int := t.rat?.bind fun q => if q.den = 1 then some q.num else none

/-! ## Order -/

/-- The place of a kind of term among the others. -/
def rank : Term → Nat
  | number _ => 0
  | e => 1
  | pi => 2
  | i => 3
  | var _ => 4
  | power .. => 5
  | product _ => 6
  | sum _ => 7
  | apply .. => 8

def compareRat (a b : Rat) : Ordering := if a < b then .lt else if a = b then .eq else .gt

def compareInt (a b : Int) : Ordering := if a < b then .lt else if a = b then .eq else .gt

/-- An order of numbers by their spelling, exact ones first. -/
def compareQuantity : Quantity → Quantity → Ordering
  | .exact a, .exact b => compareRat a b
  | .exact _, .rounded .. => .lt
  | .rounded .., .exact _ => .gt
  | .rounded x d, .rounded y d' =>
    (compareInt x.mantissa y.mantissa).then
      ((compareInt x.exponent y.exponent).then (compare d d'))

def compareExtended : Extended → Extended → Ordering
  | .finite a, .finite b => compareQuantity a b
  | a, b => compare (place a) (place b)
where
  place : Extended → Nat
    | .finite _ => 0
    | .infinite false => 1
    | .infinite true => 2
    | .unsigned => 3
    | .range => 4
    | .undefined => 5

def fnPlace (f : Fn) : Nat := functionNames.findIdx fun p => p.2 == f

mutual

/-- A fixed order of terms. -/
def compare : Term → Term → Ordering
  | number a, number b => compareExtended a b
  | var a, var b => Ord.compare a b
  | power a x, power b y => (compare a b).then (compare x y)
  | product as, product bs => compareList as bs
  | sum as, sum bs => compareList as bs
  | apply f as, apply g bs => (Ord.compare (fnPlace f) (fnPlace g)).then (compareList as bs)
  | a, b => Ord.compare a.rank b.rank

/-- The same order on lists of terms, term by term. -/
def compareList : List Term → List Term → Ordering
  | [], [] => .eq
  | [], _ :: _ => .lt
  | _ :: _, [] => .gt
  | a :: as, b :: bs => (compare a b).then (compareList as bs)

end

/-- The same term. -/
def same (a b : Term) : Bool := compare a b == .eq

/-- Terms in their fixed order. -/
def sorted (ts : List Term) : List Term := ts.mergeSort fun a b => compare a b != .gt

/-! ## Parts -/

/-- The product of terms that are no products themselves, without simplification. -/
def ofFactors : List Term → Term
  | [] => one
  | [t] => t
  | ts => product ts

/-- The sum of terms that are no sums themselves, without simplification. -/
def ofSummands : List Term → Term
  | [] => zero
  | [t] => t
  | ts => sum ts

/-- The factors of a term. -/
def factors : Term → List Term
  | product ts => ts
  | t => [t]

/-- The terms of a sum. -/
def summands : Term → List Term
  | sum ts => ts
  | t => [t]

/-- The number in front of a term, and the rest. -/
def coefficient : Term → Extended × Term
  | number n => (n, one)
  | product (number n :: ts) => (n, ofFactors ts)
  | t => (.one, t)

/-- A term as a power. -/
def basePower : Term → Term × Term
  | power b x => (b, x)
  | t => (t, one)

mutual

/-- The variables of a term, each at its first place, those already met left out. -/
def unknownsFrom (met : List Nat) : Term → List Nat
  | var v => if met.contains v then met else met ++ [v]
  | power b x => unknownsFrom (unknownsFrom met b) x
  | product ts => unknownsOf met ts
  | sum ts => unknownsOf met ts
  | apply _ ts => unknownsOf met ts
  | _ => met

/-- The same for several terms. -/
def unknownsOf (met : List Nat) : List Term → List Nat
  | [] => met
  | t :: ts => unknownsOf (unknownsFrom met t) ts

end

/-- The variables of a term. -/
def unknowns (t : Term) : List Nat := unknownsFrom [] t

/-- Whether a term has no variables. -/
def isClosed (t : Term) : Bool := t.unknowns.isEmpty

/-- Whether a minus can be drawn out of a term. Of a sum, at least half of the terms have one,
the first of them if there are as many without. -/
def hasMinus : Term → Bool
  | number n => n.isNegative
  | product (number n :: _) => n.isNegative
  | sum ts =>
    let minus := ts.countP leadsWithMinus
    if 2 * minus = ts.length then (ts.head?.map leadsWithMinus).getD false
    else decide (ts.length < 2 * minus)
  | _ => false
where
  /-- A negative number in front. -/
  leadsWithMinus : Term → Bool
    | number n => n.isNegative
    | product (number n :: _) => n.isNegative
    | _ => false

end Term

end QuantumGates
