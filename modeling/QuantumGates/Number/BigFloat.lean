-- Numbers m * 2^e with whole m and e of any size, and rounding them to a number of bits.
-- Sums and products are exact; only `round`, `quotient` and `root` choose a neighbour, and
-- they take the nearest one, a half going to the even neighbour. So a double is read without
-- loss by `ofFloat`, and `toFloat` gives the double nearest to the number.
namespace QuantumGates

/-! ## Whole numbers -/

/-- The number of binary digits of `n`, nought for zero. -/
def bitLength (n : Nat) : Nat := if n = 0 then 0 else n.log2 + 1

/-- The number of zeros at the end of the binary digits of `n`. -/
def trailingZeros (n : Nat) : Nat := (n - (n &&& (n - 1))).log2

/-- The whole number nearest to `a / b`, a half going to the even neighbour. -/
def divEven (a b : Nat) : Nat :=
  let q := a / b
  let r := a % b
  if 2 * r < b then q
  else if b < 2 * r then q + 1
  else if q % 2 = 0 then q else q + 1

/-- One step of Newton's method for the root of `n`, repeated while it descends. -/
def sqrtFrom (n : Nat) : Nat → Nat → Nat
  | 0, x => x
  | fuel + 1, x =>
    let y := (x + n / x) / 2
    if y < x then sqrtFrom n fuel y else x

/-- The whole part of the square root of `n`. -/
def floorSqrt (n : Nat) : Nat :=
  if n = 0 then 0 else sqrtFrom n (bitLength n + 2) (Nat.pow 2 ((bitLength n + 1) / 2))

/-! ## The numbers -/

/-- The number `mantissa * 2 ^ exponent`. -/
structure BigFloat where
  mantissa : Int
  exponent : Int
deriving DecidableEq, Repr, Inhabited

namespace BigFloat

def zero : BigFloat := ⟨0, 0⟩
def ofInt (n : Int) : BigFloat := ⟨n, 0⟩
def one : BigFloat := ⟨1, 0⟩

def isZero (x : BigFloat) : Bool := x.mantissa == 0
def isNegative (x : BigFloat) : Bool := decide (x.mantissa < 0)

/-- The least power of two above the magnitude has this exponent. -/
def magnitude (x : BigFloat) : Int := x.exponent + bitLength x.mantissa.natAbs

/-- The same number with an odd mantissa, or with both parts zero. -/
def normal (x : BigFloat) : BigFloat :=
  if x.mantissa = 0 then zero
  else
    let s := trailingZeros x.mantissa.natAbs
    ⟨x.mantissa / Nat.pow 2 s, x.exponent + s⟩

def neg (x : BigFloat) : BigFloat := ⟨-x.mantissa, x.exponent⟩
def abs (x : BigFloat) : BigFloat := ⟨x.mantissa.natAbs, x.exponent⟩
def mul (x y : BigFloat) : BigFloat := ⟨x.mantissa * y.mantissa, x.exponent + y.exponent⟩

/-- The number times `2 ^ k`. -/
def scale (x : BigFloat) (k : Int) : BigFloat := ⟨x.mantissa, x.exponent + k⟩

/-- The mantissa of the number when its exponent is lowered to `e`. -/
def mantissaAt (x : BigFloat) (e : Int) : Int := x.mantissa * Nat.pow 2 (x.exponent - e).toNat

def add (x y : BigFloat) : BigFloat :=
  let e := min x.exponent y.exponent
  ⟨x.mantissaAt e + y.mantissaAt e, e⟩

/-- The nearest number with `p` binary digits, a half going to the even neighbour. -/
def round (p : Nat) (x : BigFloat) : BigFloat :=
  let n := x.mantissa.natAbs
  let s : Nat := bitLength n - p
  if s = 0 then x.normal
  else normal ⟨x.mantissa.sign * (divEven n (Nat.pow 2 s) : Nat), x.exponent + s⟩

/-- The sum to `p` digits. A term far below the last digit of the other is left out. -/
def sum (p : Nat) (x y : BigFloat) : BigFloat :=
  if x.isZero then y.round p
  else if y.isZero then x.round p
  else if y.magnitude + p + 8 < x.magnitude - bitLength x.mantissa.natAbs then x.round p
  else if x.magnitude + p + 8 < y.magnitude - bitLength y.mantissa.natAbs then y.round p
  else (x.add y).round p

def product (p : Nat) (x y : BigFloat) : BigFloat := (x.mul y).round p

/-- The quotient to `p` digits, zero for a zero divisor. -/
def quotient (p : Nat) (x y : BigFloat) : BigFloat :=
  if y.isZero then zero
  else
    let a := x.mantissa.natAbs
    let b := y.mantissa.natAbs
    let s := p + 2 + bitLength b - bitLength a
    let q := (a * Nat.pow 2 s) / b
    let sticky := if (a * Nat.pow 2 s) % b = 0 then 0 else 1
    round p ⟨x.mantissa.sign * y.mantissa.sign * (2 * q + sticky : Nat),
      x.exponent - y.exponent - s - 1⟩

/-- The square root of the magnitude to `p` digits. -/
def root (p : Nat) (x : BigFloat) : BigFloat :=
  let n := x.mantissa.natAbs
  let s := 2 * (p + 2)
  let odd := (x.exponent % 2).toNat
  let m := n * Nat.pow 2 (s + odd)
  let r := floorSqrt m
  let sticky := if r * r = m then 0 else 1
  round p ⟨(2 * r + sticky : Nat), (x.exponent - odd - s) / 2 - 1⟩

/-- The number to a whole power, to `p` digits, by repeated squaring of its binary digits. -/
def powNat (p : Nat) (x : BigFloat) (n : Nat) : BigFloat :=
  let w := p + 2 * bitLength n + 16
  let rec go : Nat → Nat → BigFloat → BigFloat → BigFloat
    | 0, _, _, acc => acc
    | fuel + 1, k, sq, acc =>
      if k = 0 then acc
      else
        let acc := if k % 2 = 1 then product w acc sq else acc
        go fuel (k / 2) (product w sq sq) acc
  (go (bitLength n + 1) n x one).round p

/-- The quotient of two whole numbers to `p` digits. -/
def ofRatio (p : Nat) (a : Int) (b : Nat) : BigFloat := quotient p (ofInt a) (ofInt b)

/-- Whether `x` is below `y`. -/
def less (x y : BigFloat) : Bool :=
  if x.mantissa.sign ≠ y.mantissa.sign then decide (x.mantissa.sign < y.mantissa.sign)
  else if x.isZero then false
  else if x.magnitude ≠ y.magnitude then
    if x.isNegative then decide (y.magnitude < x.magnitude) else decide (x.magnitude < y.magnitude)
  else
    let e := min x.exponent y.exponent
    decide (x.mantissaAt e < y.mantissaAt e)

/-- Whether the number is whole. -/
def isWhole (x : BigFloat) : Bool := x.isZero || decide (0 ≤ x.normal.exponent)

/-- The whole number nearest to the number, a half going to the even neighbour. -/
def nearestInt (x : BigFloat) : Int :=
  if 0 ≤ x.exponent then x.mantissa * Nat.pow 2 x.exponent.toNat
  else if x.magnitude < -1 then 0
  else x.mantissa.sign * (divEven x.mantissa.natAbs (Nat.pow 2 (-x.exponent).toNat) : Nat)

/-- The number as a whole count of units `2 ^ -w`, rounded down. -/
def toFixed (w : Nat) (x : BigFloat) : Int :=
  let e := x.exponent + w
  if 0 ≤ e then x.mantissa * Nat.pow 2 e.toNat else x.mantissa / Nat.pow 2 (-e).toNat

/-! ## Doubles -/

/-- The number that a finite double stands for, and zero for the others. -/
def ofFloat (x : Float) : BigFloat :=
  let bits := x.toBits.toNat
  let sign : Int := if bits / Nat.pow 2 63 = 0 then 1 else -1
  let e : Nat := bits / Nat.pow 2 52 % 2048
  let f : Nat := bits % Nat.pow 2 52
  if e = 2047 then zero
  else if e = 0 then normal ⟨sign * f, -1074⟩
  else normal ⟨sign * (f + Nat.pow 2 52 : Nat), (e : Int) - 1075⟩

/-- The bits of a positive double without its sign, those of infinity from `2 ^ 1024` on. -/
def magnitudeBits (n : Nat) (e : Int) : Nat :=
  let top := e + bitLength n - 1
  if n = 0 then 0
  else if 1024 ≤ top then 2047 * Nat.pow 2 52
  else if top < -1080 then 0
  else
    let unit := max (top - 52) (-1074)
    let q :=
      if unit ≤ e then n * Nat.pow 2 (e - unit).toNat
      else divEven n (Nat.pow 2 (unit - e).toNat)
    min ((unit + 1074).toNat * Nat.pow 2 52 + q) (2047 * Nat.pow 2 52)

/-- The double nearest to the number, infinite beyond the largest double. -/
def toFloat (x : BigFloat) : Float :=
  let bits := magnitudeBits x.mantissa.natAbs x.exponent
  Float.ofBits (UInt64.ofNat (if x.mantissa < 0 then bits + Nat.pow 2 63 else bits))

end BigFloat

end QuantumGates
