-- The numbers of an expression: exact ratios, and numbers that are rounded to a count of binary
-- digits after each step. Arithmetic with a rounded number is rounded; a rounded result that is
-- nought is exactly nought. `Extended` adds the infinities and what is not determined.
import QuantumGates.Number.BigComplex
import QuantumGates.Number.Reading

namespace QuantumGates

/-! ## Finite numbers -/

inductive Quantity
  | exact (q : Rat)
  | rounded (x : BigFloat) (digits : Nat)
deriving DecidableEq

namespace Quantity

def zero : Quantity := exact 0
def one : Quantity := exact 1
def ofInt (n : Int) : Quantity := exact n

/-- A result rounded to a count of digits. -/
def ofResult (digits : Nat) (x : BigFloat) : Quantity :=
  if x.isZero then zero else rounded (x.round digits) digits

def isZero : Quantity → Bool
  | exact q => q == 0
  | rounded x _ => x.isZero

def isNegative : Quantity → Bool
  | exact q => decide (q < 0)
  | rounded x _ => x.isNegative

def isOne (n : Quantity) : Bool := n == one

/-- The digits that a number is rounded to. -/
def digits? : Quantity → Option Nat
  | exact _ => none
  | rounded _ d => some d

/-- The number to `p` digits, or without loss if it is rounded already. -/
def toBigFloat (p : Nat) : Quantity → BigFloat
  | exact q => BigFloat.ofRatio p q.num q.den
  | rounded x _ => x

/-- The larger count of digits of two numbers. -/
def commonDigits (a b : Quantity) : Nat := max (a.digits?.getD 0) (b.digits?.getD 0)

def add : Quantity → Quantity → Quantity
  | exact a, exact b => exact (a + b)
  | a, b =>
    let d := commonDigits a b
    ofResult d (BigFloat.sum d (a.toBigFloat d) (b.toBigFloat d))

def mul : Quantity → Quantity → Quantity
  | exact a, exact b => exact (a * b)
  | a, b =>
    let d := commonDigits a b
    ofResult d (BigFloat.product d (a.toBigFloat d) (b.toBigFloat d))

def neg : Quantity → Quantity
  | exact a => exact (-a)
  | rounded x d => rounded x.neg d

def abs (n : Quantity) : Quantity := if n.isNegative then n.neg else n

/-- The digits of a double. -/
def doubleDigits : Nat := 53

/-- The binary digits that hold a count of decimal digits, fifteen at least. -/
def digitsFor (decimals : Nat) : Nat :=
  -- a decimal digit is worth 3.3219280948873626 binary ones
  let n := max 15 decimals + 1
  (n * 33219280948873626 + 5000000000000000) / 10000000000000000

/-- A number written with a point or a power of ten. -/
def ofDecimal (d : Decimal) : Quantity :=
  let p := digitsFor d.width
  let x :=
    if 0 ≤ d.exponent then (BigFloat.ofInt (d.digits * Nat.pow 10 d.exponent.toNat)).round p
    else BigFloat.ofRatio p d.digits (Nat.pow 10 (-d.exponent).toNat)
  rounded x p

end Quantity

/-! ## Infinities -/

/-- A number, an infinity, or what is not determined. -/
inductive Extended
  | finite (q : Quantity)
  | infinite (negative : Bool)
  /-- Infinite in no direction, as the inverse of nought. -/
  | unsigned
  /-- Any number of a range. -/
  | range
  | undefined
deriving DecidableEq

namespace Extended

def zero : Extended := finite .zero
def one : Extended := finite .one
def ofInt (n : Int) : Extended := finite (.ofInt n)
def ofRat (q : Rat) : Extended := finite (.exact q)

def isZero : Extended → Bool
  | finite q => q.isZero
  | _ => false

/-- Exactly one. -/
def isOne (x : Extended) : Bool := x == one

def isInfinite : Extended → Bool
  | infinite _ | unsigned => true
  | _ => false

def isNegative : Extended → Bool
  | finite q => q.isNegative
  | infinite n => n
  | _ => false

def neg : Extended → Extended
  | finite q => finite q.neg
  | infinite n => infinite !n
  | x => x

/-- Opposite infinities have no sum, nor have two without a direction. -/
def add : Extended → Extended → Extended
  | undefined, _ | _, undefined => undefined
  | range, _ | _, range => range
  | unsigned, y => if y.isInfinite then undefined else unsigned
  | x, unsigned => if x.isInfinite then undefined else unsigned
  | infinite a, infinite b => if a = b then infinite a else undefined
  | infinite a, finite _ => infinite a
  | finite _, infinite b => infinite b
  | finite a, finite b => finite (a.add b)

/-- Nought and an infinity have no product. -/
def mul : Extended → Extended → Extended
  | undefined, _ | _, undefined => undefined
  | range, y => if y.isZero then zero else range
  | x, range => if x.isZero then zero else range
  | unsigned, y => if y.isZero then undefined else unsigned
  | x, unsigned => if x.isZero then undefined else unsigned
  | infinite a, y => if y.isZero then undefined else infinite (a != y.isNegative)
  | x, infinite b => if x.isZero then undefined else infinite (x.isNegative != b)
  | finite a, finite b => finite (a.mul b)

/-- A double as a number of an expression. -/
def ofFloat (x : Float) : Extended :=
  if x.isNaN then undefined
  else if x.isInf then infinite (isNegativeFloat x)
  else finite (.rounded (BigFloat.ofFloat x) Quantity.doubleDigits)

end Extended

end QuantumGates
