-- The elementary functions to any number of digits. Each works on whole counts of units
-- 2^-w: it brings the argument into a small interval, adds up the power series there until
-- the next term is below one unit, and undoes the reduction. The result has some thirty
-- digits more than asked for before it is rounded once.
import QuantumGates.Number.BigFloat

namespace QuantumGates

/-! ## Counts of units -/

namespace FixedPoint

/-- The product of two counts of units `2 ^ -w`. -/
def mul (w : Nat) (a b : Int) : Int := a * b / Nat.pow 2 w

/-- Adds up the terms that `next` gives, from term number `k` on, until one is nought. -/
def series (next : Nat → Int → Int) : Nat → Nat → Int → Int → Int
  | 0, _, _, acc => acc
  | fuel + 1, k, term, acc =>
    if term = 0 then acc else series next fuel (k + 1) (next k term) (acc + term)

/-- The sum of the terms `x ^ (2 k + i) / (2 k + i)!` over every `k`, `first` being the first of
them. The sign turns at each term if `turn` is set. -/
def halfExp (w : Nat) (turn : Bool) (i : Nat) (x first : Int) : Int :=
  let sq := mul w x x
  let sq := if turn then -sq else sq
  series (fun k t => (mul w t sq) / ((2 * k + i + 1) * (2 * k + i + 2) : Nat)) (w + 8) 0 first 0

def sinSmall (w : Nat) (x : Int) : Int := halfExp w true 1 x x
def cosSmall (w : Nat) (x : Int) : Int := halfExp w true 0 x (Nat.pow 2 w)
def sinhSmall (w : Nat) (x : Int) : Int := halfExp w false 1 x x

/-- Squares `n` times. -/
def squareTimes (w : Nat) : Nat → Int → Int
  | 0, x => x
  | n + 1, x => squareTimes w n (mul w x x)

/-- The exponential of a count of units below one. -/
def expSmall (w : Nat) (x : Int) : Int :=
  let v := w + 24
  let y := x * Nat.pow 2 16
  let e := series (fun k t => mul v t y / ((k + 1 : Nat) : Int)) (v + 8) 0 (Nat.pow 2 v) 0
  squareTimes v 8 e / Nat.pow 2 24

/-- The terms `x ^ (2 k + 1) / (2 k + 1)`, the sign turning at each if `turn` is set. -/
def oddReciprocals (w : Nat) (turn : Bool) (x : Int) : Int :=
  let sq := mul w x x
  let sq := if turn then -sq else sq
  let rec go : Nat → Nat → Int → Int → Int
    | 0, _, _, acc => acc
    | fuel + 1, k, power, acc =>
      if power = 0 then acc
      else go fuel (k + 1) (mul w power sq) (acc + power / ((2 * k + 1 : Nat) : Int))
  go (w + 8) 0 x 0

def atanhSmall (w : Nat) (x : Int) : Int := oddReciprocals w false x

/-- Halves the angle: the tangent of half the arc with tangent `x`. -/
def halveTangent (w : Nat) (x : Int) : Int :=
  let hyp := (floorSqrt (Nat.pow 2 (2 * w) + x.natAbs * x.natAbs) : Int)
  x * Nat.pow 2 w / (Nat.pow 2 w + hyp)

/-- The arc whose tangent is a count of units of at most one. -/
def atanSmall (w : Nat) (x : Int) : Int :=
  let v := w + 16
  let y := halveTangent v (halveTangent v (halveTangent v (x * Nat.pow 2 16)))
  oddReciprocals v true y * 8 / Nat.pow 2 16

/-- `ln 2` in units. -/
def ln2 (w : Nat) : Int :=
  let v := w + 16
  (14 * atanhSmall v (Nat.pow 2 v / 31) + 10 * atanhSmall v (Nat.pow 2 v / 49)
    + 6 * atanhSmall v (Nat.pow 2 v / 161)) / Nat.pow 2 16

/-- The ratio of a circle's circumference to its diameter in units. -/
def pi (w : Nat) : Int :=
  let v := w + 16
  (16 * oddReciprocals v true (Nat.pow 2 v / 5)
    - 4 * oddReciprocals v true (Nat.pow 2 v / 239)) / Nat.pow 2 16

end FixedPoint

/-! ## The functions -/

namespace BigFloat

open FixedPoint

/-- The number `n` units of `2 ^ -w`. -/
def ofFixed (w : Nat) (n : Int) : BigFloat := ⟨n, -w⟩

def pi (p : Nat) : BigFloat := (ofFixed (p + 32) (FixedPoint.pi (p + 32))).round p

/-- Far beyond every double, where the exponential of an argument this large ends. -/
def beyondRange : Int := Nat.pow 2 40

/-- An argument of this size or more is not reduced. -/
def isHuge (x : BigFloat) : Bool := decide (40 < x.magnitude)

def exp (p : Nat) (x : BigFloat) : BigFloat :=
  if x.isZero then one
  else if x.isHuge then ⟨1, if x.isNegative then -beyondRange else beyondRange⟩
  else if x.magnitude < -(p + 40 : Int) then one
  else
    let w := p + 48
    let v := w + 48
    let fx := x.toFixed v
    let l := ln2 v
    let k := (2 * fx + l) / (2 * l)
    let r := (fx - k * l) / Nat.pow 2 48
    (scale (ofFixed w (expSmall w r)) k).round p

/-- The natural logarithm of a positive number. -/
def log (p : Nat) (x : BigFloat) : BigFloat :=
  let n := bitLength x.mantissa.natAbs
  -- the mantissa scaled to lie between 3/4 and 3/2
  let k : Int := if 3 * Nat.pow 2 n ≤ x.mantissa.natAbs * 4 then x.magnitude else x.magnitude - 1
  let f := x.scale (-k)
  let d := f.add (ofInt (-1))
  if d.isZero && k == 0 then zero
  else
    -- digits lost to cancellation when the argument is close to one
    let close : Nat := if k = 0 then (-d.magnitude).toNat else 0
    let w := p + 48 + close + bitLength k.natAbs
    let z := d.toFixed w * Nat.pow 2 w / (f.toFixed w + Nat.pow 2 w)
    (ofFixed w (2 * atanhSmall w z + k * ln2 w)).round p

/-- The turns of a quarter circle in `x` and the rest, in units of `2 ^ -w`. -/
def quarterTurns (w : Nat) (x : BigFloat) : Int × Int :=
  let half := FixedPoint.pi (w + 1)
  let fx := x.toFixed (w + 2)
  -- `half` counts units of `2 ^ -(w + 2)` in a quarter turn
  let k := (2 * fx + half) / (2 * half)
  (k, (fx - k * half) / 4)

/-- Sine and cosine together. -/
def sinCos (p : Nat) (x : BigFloat) : BigFloat × BigFloat :=
  if x.isZero then (zero, one)
  else if x.magnitude < -(p + 40 : Int) then (x.round p, one)
  else
    let w := p + 64 + x.magnitude.natAbs + bitLength x.mantissa.natAbs
    let (k, r) := quarterTurns w x
    let s := ofFixed w (sinSmall w r)
    let c := ofFixed w (cosSmall w r)
    let (s, c) :=
      if k % 4 = 0 then (s, c)
      else if k % 4 = 1 then (c, s.neg)
      else if k % 4 = 2 then (s.neg, c.neg)
      else (c.neg, s)
    (s.round p, c.round p)

def sin (p : Nat) (x : BigFloat) : BigFloat := (sinCos p x).1
def cos (p : Nat) (x : BigFloat) : BigFloat := (sinCos p x).2
def tan (p : Nat) (x : BigFloat) : BigFloat :=
  let (s, c) := sinCos (p + 16) x
  quotient p s c

/-- The arc with a given tangent, between minus and plus a quarter turn. -/
def atan (p : Nat) (x : BigFloat) : BigFloat :=
  if x.isZero then zero
  else if x.magnitude < -(p + 40 : Int) then x.round p
  else if 1 < x.magnitude ∧ (p + 40 : Int) < x.magnitude then
    let q := (pi (p + 32)).scale (-1)
    (sum (p + 8) (if x.isNegative then q.neg else q) (quotient (p + 8) one x).neg).round p
  else
    let w := p + 48 + (-x.magnitude).toNat
    if x.magnitude ≤ 0 then (ofFixed w (atanSmall w (x.toFixed w))).round p
    else
      let inv := quotient (w + 8) one x
      let arc := FixedPoint.pi w / 2 - (atanSmall w (inv.abs.toFixed w))
      (ofFixed w (if x.isNegative then -arc else arc)).round p

/-- The angle of the point with abscissa `x` and ordinate `y`, the origin apart. -/
def atan2 (p : Nat) (y x : BigFloat) : BigFloat :=
  if x.isZero then
    let q := (pi (p + 16)).scale (-1)
    (if y.isNegative then q.neg else q).round p
  else
    let arc := atan (p + 16) (quotient (p + 32) y x)
    if !x.isNegative then arc.round p
    else if y.isNegative then (arc.add (pi (p + 16)).neg).round p
    else (arc.add (pi (p + 16))).round p

/-- `1 - x ^ 2`, exactly. -/
def coSquare (x : BigFloat) : BigFloat := one.add (x.mul x).neg

def asin (p : Nat) (x : BigFloat) : BigFloat := atan2 p x (root (p + 32) x.coSquare)
def acos (p : Nat) (x : BigFloat) : BigFloat := atan2 p (root (p + 32) x.coSquare) x

def sinh (p : Nat) (x : BigFloat) : BigFloat :=
  if x.isZero then zero
  else if x.magnitude < -(p + 40 : Int) then x.round p
  else if x.magnitude ≤ 0 then
    let w := p + 48 + (-x.magnitude).toNat
    (ofFixed w (sinhSmall w (x.toFixed w))).round p
  else
    let e := exp (p + 16) x
    (sum (p + 8) e (quotient (p + 16) one e).neg).scale (-1) |>.round p

def cosh (p : Nat) (x : BigFloat) : BigFloat :=
  let e := exp (p + 16) x
  (sum (p + 8) e (quotient (p + 16) one e)).scale (-1) |>.round p

def tanh (p : Nat) (x : BigFloat) : BigFloat :=
  quotient p (sinh (p + 16) x) (cosh (p + 16) x)

/-- Positive number to any power. -/
def pow (p : Nat) (x y : BigFloat) : BigFloat :=
  let l := log (p + 64 + y.magnitude.toNat) x
  exp p (product (p + 64 + y.magnitude.toNat + l.magnitude.toNat) y l)

end BigFloat

end QuantumGates
