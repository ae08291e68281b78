-- Complex numbers with parts of many digits, and the elementary functions on them. A part that
-- is exactly nought stays so wherever the function allows it: the square root of a negative
-- number has no real part, and a function that is real on the real line gives real values
-- there. A sum that loses nearly all of its digits is nought.
import QuantumGates.Number.Elementary

namespace QuantumGates

structure BigComplex where
  re : BigFloat
  im : BigFloat
deriving DecidableEq, Repr

/-! ## Sums that cancel -/

/-- The digits that a sum may lose before what is left counts as nought. -/
def cancelledDigits : Int := 240

/-- The sum to `p` digits, nought when it is negligible beside its terms. -/
def BigFloat.sumOrNought (p : Nat) (x y : BigFloat) : BigFloat :=
  let s := BigFloat.sum p x y
  if s.isZero then .zero
  else if s.magnitude + cancelledDigits < max x.magnitude y.magnitude &&
      !x.isZero && !y.isZero then .zero
  else s

/-- A value of a function bounded by one, nought when it is negligible. -/
def BigFloat.dropNegligible (x : BigFloat) : BigFloat :=
  if x.magnitude + cancelledDigits < 0 then .zero else x

namespace BigComplex

def zero : BigComplex := ⟨.zero, .zero⟩
def one : BigComplex := ⟨.one, .zero⟩
def i : BigComplex := ⟨.zero, .one⟩
def ofReal (x : BigFloat) : BigComplex := ⟨x, .zero⟩
def ofImaginary (x : BigFloat) : BigComplex := ⟨.zero, x⟩

def isZero (z : BigComplex) : Bool := z.re.isZero && z.im.isZero
def isReal (z : BigComplex) : Bool := z.im.isZero

def neg (z : BigComplex) : BigComplex := ⟨z.re.neg, z.im.neg⟩
def conj (z : BigComplex) : BigComplex := ⟨z.re, z.im.neg⟩

/-- The number times `i`. -/
def timesI (z : BigComplex) : BigComplex := ⟨z.im.neg, z.re⟩

section

variable (p : Nat)

def add (z w : BigComplex) : BigComplex :=
  ⟨BigFloat.sumOrNought p z.re w.re, BigFloat.sumOrNought p z.im w.im⟩

def sub (z w : BigComplex) : BigComplex := add p z w.neg

def mul (z w : BigComplex) : BigComplex :=
  ⟨BigFloat.sumOrNought p (z.re.mul w.re) (z.im.mul w.im).neg,
   BigFloat.sumOrNought p (z.re.mul w.im) (z.im.mul w.re)⟩

/-- The square of the distance from nought. -/
def normSq (z : BigComplex) : BigFloat := BigFloat.sum (2 * p) (z.re.mul z.re) (z.im.mul z.im)

def abs (z : BigComplex) : BigFloat :=
  if z.im.isZero then z.re.abs
  else if z.re.isZero then z.im.abs
  else BigFloat.root p (normSq p z)

/-- A number divided by a real number. -/
def divReal (z : BigComplex) (x : BigFloat) : BigComplex :=
  ⟨BigFloat.quotient p z.re x, BigFloat.quotient p z.im x⟩

/-- The inverse of a number that is not nought. -/
def inv (z : BigComplex) : BigComplex :=
  if z.im.isZero then ofReal (BigFloat.quotient p .one z.re)
  else if z.re.isZero then ofImaginary (BigFloat.quotient p .one z.im).neg
  else divReal p z.conj (normSq p z)

def div (z w : BigComplex) : BigComplex :=
  if w.im.isZero then divReal p z w.re else mul p z (inv (p + 8) w)

/-- The angle of a number that is not nought. -/
def arg (z : BigComplex) : BigFloat :=
  if z.im.isZero && !z.re.isNegative then .zero else BigFloat.atan2 p z.im z.re

def exp (z : BigComplex) : BigComplex :=
  let r := BigFloat.exp p z.re
  if z.im.isZero then ofReal r
  else
    let (s, c) := BigFloat.sinCos (p + 8) z.im
    ⟨BigFloat.product p r c.dropNegligible, BigFloat.product p r s.dropNegligible⟩

/-- The logarithm of a number that is not nought. -/
def log (z : BigComplex) : BigComplex :=
  let size := if z.im.isZero || z.re.isZero then BigFloat.log p (abs p z)
    else (BigFloat.log p (normSq p z)).scale (-1)
  ⟨size, arg p z⟩

/-- The square root with a real part that is not negative. -/
def sqrt (z : BigComplex) : BigComplex :=
  if z.im.isZero then
    if z.re.isNegative then ofImaginary (BigFloat.root p z.re.abs)
    else ofReal (BigFloat.root p z.re)
  else exp p ⟨(log (p + 8) z).re.scale (-1), (log (p + 8) z).im.scale (-1)⟩

/-- A power with a natural exponent, by repeated squaring. -/
def powNat (z : BigComplex) (n : Nat) : BigComplex :=
  let rec go : Nat → Nat → BigComplex → BigComplex → BigComplex
    | 0, _, _, acc => acc
    | fuel + 1, k, sq, acc =>
      if k = 0 then acc
      else go fuel (k / 2) (mul (p + 64) sq sq) (if k % 2 = 1 then mul (p + 64) acc sq else acc)
  if z.im.isZero then ofReal (BigFloat.powNat p z.re n) else go (bitLength n + 1) n z one

/-- A whole power of a number that is not nought. -/
def powInt (z : BigComplex) (n : Int) : BigComplex :=
  if 0 ≤ n then powNat p z n.toNat else inv p (powNat (p + 8) z n.natAbs)

/-- A power of a number that is not nought. Whole powers are products, and halves of odd
numbers are powers of a square root. -/
def pow (z w : BigComplex) : BigComplex :=
  let twice := w.re.scale 1
  if w.im.isZero && w.re.isWhole then powInt p z w.re.nearestInt
  else if w.im.isZero && twice.isWhole then powInt p (sqrt (p + 16) z) twice.nearestInt
  else if w.im.isZero && z.im.isZero && !z.re.isNegative then ofReal (BigFloat.pow p z.re w.re)
  else exp p (mul (p + 64) w (log (p + 64) z))

/-! ## Circular and hyperbolic functions -/

def sinh (z : BigComplex) : BigComplex :=
  let (s, c) := BigFloat.sinCos p z.im
  ⟨BigFloat.product p (BigFloat.sinh p z.re) c.dropNegligible,
   BigFloat.product p (BigFloat.cosh p z.re) (if z.im.magnitude ≤ 0 then s else s.dropNegligible)⟩

def cosh (z : BigComplex) : BigComplex :=
  let (s, c) := BigFloat.sinCos p z.im
  ⟨BigFloat.product p (BigFloat.cosh p z.re) c.dropNegligible,
   BigFloat.product p (BigFloat.sinh p z.re) (if z.im.magnitude ≤ 0 then s else s.dropNegligible)⟩

def sin (z : BigComplex) : BigComplex := (sinh p z.timesI).timesI.neg
def cos (z : BigComplex) : BigComplex := cosh p z.timesI

/-- The hyperbolic tangent, where the cosine is not nought. -/
def tanh (z : BigComplex) : BigComplex :=
  if z.im.isZero then ofReal (BigFloat.tanh p z.re) else div p (sinh (p + 16) z) (cosh (p + 16) z)

/-! ## Inverse functions -/

/-- The positive number whose hyperbolic cosine is `x`, for `x` of one or more. -/
def arcosh (x : BigFloat) : BigFloat :=
  BigFloat.log p (BigFloat.sum (p + 64) x (BigFloat.root (p + 64) x.coSquare))

def quarterTurn : BigFloat := (BigFloat.pi p).scale (-1)

def asin (z : BigComplex) : BigComplex :=
  if z.im.isZero then
    if !BigFloat.one.less z.re.abs then ofReal (BigFloat.asin p z.re)
    else if z.re.isNegative then ⟨(quarterTurn p).neg, arcosh p z.re.abs⟩
    else ⟨quarterTurn p, (arcosh p z.re).neg⟩
  else
    -- the angle whose sine is z is -i log (i z + sqrt (1 - z ^ 2))
    let q := p + 64
    let root := sqrt q (sub q one (mul q z z))
    (log p (add q z.timesI root)).timesI.neg

def acos (z : BigComplex) : BigComplex :=
  if z.im.isZero then
    if !BigFloat.one.less z.re.abs then ofReal (BigFloat.acos p z.re)
    else if z.re.isNegative then ⟨BigFloat.pi p, (arcosh p z.re.abs).neg⟩
    else ⟨.zero, arcosh p z.re⟩
  else sub p (ofReal (quarterTurn (p + 8))) (asin (p + 8) z)

/-- The inverse tangent, except at `i` and `-i`. -/
def atan (z : BigComplex) : BigComplex :=
  if z.im.isZero then ofReal (BigFloat.atan p z.re)
  else
    let q := p + 64
    let d := sub q (log q (sub q one z.timesI)) (log q (add q one z.timesI))
    ⟨d.im.scale (-1) |>.neg, d.re.scale (-1)⟩

end

end BigComplex

end QuantumGates
