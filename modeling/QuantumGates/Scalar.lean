-- The arithmetic that gates are computed in. Everything about gates is said for any type of
-- numbers with these operations: the library runs on doubles, and a law of exact arithmetic is
-- a statement about the same definitions on the real numbers.
import QuantumGates.Fault
import QuantumGates.Number.Elementary
import QuantumGates.Number.Reading

namespace QuantumGates

/-- Numbers with the elementary functions. A function with a query mark refuses an argument
where it has no value, and a result that is too large. -/
class Scalar (R : Type) extends Zero R, One R, Add R, Sub R, Mul R, Neg R, Div R where
  /-- A whole number. -/
  whole : Nat → R
  /-- Half a turn. -/
  pi : R
  /-- Neither infinite nor undefined. -/
  isFinite : R → Bool
  /-- Not undefined. -/
  isDefined : R → Bool
  /-- Equal as numbers. -/
  equal : R → R → Bool
  /-- Below another number. -/
  below : R → R → Bool
  abs : R → R
  /-- One with the sign of a number. -/
  sign : R → R
  atan2 : R → R → R
  sin? : R → Except (Fault R) R
  cos? : R → Except (Fault R) R
  acos? : R → Except (Fault R) R
  exp? : R → Except (Fault R) R
  sqrt? : R → Except (Fault R) R
  pow? : R → R → Except (Fault R) R
  /-- The square of a number. -/
  square? : R → Except (Fault R) R
  /-- The distance of a point from the origin. -/
  hypot? : R → R → Except (Fault R) R
  /-- Cosine and sine, undefined where the angle is not finite. -/
  cosSin : R → R × R
  /-- How a number is written. -/
  text : R → String
  /-- Whether a number is written with a minus. -/
  isMinus : R → Bool

/-! ## Doubles -/

namespace Double

def infinity : Float := Float.ofBits 0x7FF0000000000000
def undefined : Float := Float.ofBits 0x7FF8000000000000

/-- The digits that a function is computed with before it is rounded to a double. -/
def workingDigits : Nat := 128

/-- The double nearest to the value of a function, which must be finite. -/
def nearest (f : Nat → BigFloat → BigFloat) (x : Float) : Float :=
  (f workingDigits (BigFloat.ofFloat x)).toFloat

def isZero (x : Float) : Bool := x == 0.0
def isFinite (x : Float) : Bool := x.isFinite

/-- Half a turn as a double. -/
def pi : Float := Float.ofBits 0x400921FB54442D18

/-- One with the sign of the first bit. -/
def sign (x : Float) : Float := if isNegativeFloat x then -1.0 else 1.0

def sin (x : Float) : Float :=
  if !x.isFinite then undefined else if isZero x then x else nearest BigFloat.sin x

def cos (x : Float) : Float := if !x.isFinite then undefined else nearest BigFloat.cos x

/-- Sine and cosine have no value at the infinities. -/
def periodic (f : Float → Float) (x : Float) : Except (Fault Float) Float :=
  if x.isInf then .error .undefined else .ok (f x)

def acos? (x : Float) : Except (Fault Float) Float :=
  if x.isNaN then .ok x
  else if x.abs ≤ 1.0 then .ok (nearest BigFloat.acos x)
  else .error .undefined

def exp (x : Float) : Float :=
  if x.isNaN then x
  else if x.isInf then (if isNegativeFloat x then 0.0 else x)
  else nearest BigFloat.exp x

/-- A finite argument must not give an infinite result. -/
def inRange (finite : Bool) (y : Float) : Except (Fault Float) Float :=
  if finite && y.isInf then .error .tooLarge else .ok y

def exp? (x : Float) : Except (Fault Float) Float := inRange x.isFinite (exp x)

def sqrt? (x : Float) : Except (Fault Float) Float :=
  if x < 0.0 then .error .undefined else .ok x.sqrt

/-- Whether a finite double is an odd whole number. -/
def isOdd (x : Float) : Bool :=
  let b := (BigFloat.ofFloat x).normal
  b.exponent == 0 && b.mantissa % 2 == 1

def isWhole (x : Float) : Bool := (BigFloat.ofFloat x).isWhole

/-- A power of a finite positive double to a finite exponent. Small whole exponents are
computed without loss, so that a result half way between two doubles is seen as such. -/
def positivePow (x y : Float) : Float :=
  let bx := BigFloat.ofFloat x
  let n := (BigFloat.ofFloat y).nearestInt
  if isWhole y && decide (bitLength bx.mantissa.natAbs * n.natAbs ≤ 4096) then
    let power : BigFloat := ⟨Int.pow bx.mantissa n.natAbs, bx.exponent * n.natAbs⟩
    if 0 ≤ n then power.toFloat else (BigFloat.quotient workingDigits .one power).toFloat
  else (BigFloat.pow workingDigits bx (BigFloat.ofFloat y)).toFloat

/-- Powers with an infinite or undefined base or exponent. -/
def limitPow (x y : Float) : Float :=
  if x.isNaN then (if isZero y then 1.0 else x)
  else if y.isNaN then (if x == 1.0 then 1.0 else y)
  else if x.isInf then
    let odd := y.isFinite && isOdd y
    if 0.0 < y then (if odd then x else x.abs)
    else if isZero y then 1.0
    else if odd && isNegativeFloat x then -0.0 else 0.0
  else if x.abs == 1.0 then 1.0
  else if (0.0 < y && 1.0 < x.abs) || (y < 0.0 && x.abs < 1.0) then infinity
  else 0.0

def pow? (x y : Float) : Except (Fault Float) Float :=
  if !x.isFinite || !y.isFinite then .ok (limitPow x y)
  else if isZero y then .ok 1.0
  else if isZero x then
    if y < 0.0 then .error .undefined
    else .ok (if isOdd y then x else 0.0)
  else if x < 0.0 then
    if !isWhole y then .error .undefined
    else
      let m := positivePow (-x) y
      inRange true (if isOdd y then -m else m)
  else inRange true (positivePow x y)

def square? (x : Float) : Except (Fault Float) Float := inRange x.isFinite (x * x)

def hypot? (x y : Float) : Except (Fault Float) Float :=
  if x.isInf || y.isInf then .ok infinity
  else if x.isNaN || y.isNaN then .ok undefined
  else
    let a := BigFloat.ofFloat x
    let b := BigFloat.ofFloat y
    inRange true (BigFloat.root workingDigits ((a.mul a).add (b.mul b))).toFloat

/-- A zero with the sign of `x`. -/
def signedZero (x : Float) : Float := if isNegativeFloat x then -0.0 else 0.0

/-- A magnitude with the sign of `x`. -/
def withSign (x m : Float) : Float := if isNegativeFloat x then -m else m

/-- Eighths of a turn, as doubles. -/
def eighths (n : Nat) : Float :=
  ((BigFloat.pi workingDigits).mul ⟨n, -2⟩).toFloat

def atan2 (y x : Float) : Float :=
  if x.isNaN || y.isNaN then undefined
  else if y.isInf then
    withSign y (if x.isInf then (if isNegativeFloat x then eighths 3 else eighths 1) else eighths 2)
  else if x.isInf || isZero y then
    if isNegativeFloat x then withSign y pi else signedZero y
  else
    (BigFloat.atan2 workingDigits (BigFloat.ofFloat y) (BigFloat.ofFloat x)).toFloat

instance : Scalar Float where
  zero := 0.0
  one := 1.0
  add := Float.add
  sub := Float.sub
  mul := Float.mul
  neg := Float.neg
  div := Float.div
  whole := Float.ofNat
  pi := pi
  isFinite := Float.isFinite
  isDefined x := !x.isNaN
  equal x y := x == y
  below x y := decide (x < y)
  abs := Float.abs
  sign := sign
  atan2 := atan2
  sin? := periodic sin
  cos? := periodic cos
  acos? := acos?
  exp? := exp?
  sqrt? := sqrt?
  pow? := pow?
  square? := square?
  hypot? := hypot?
  cosSin x := (cos x, sin x)
  text := floatText
  isMinus := isNegativeFloat

end Double

end QuantumGates
