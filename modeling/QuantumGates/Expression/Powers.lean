-- The rules for powers. A power of exact numbers is exact: roots are taken prime by prime, and
-- what is no root stays a power with an exponent between nought and one. A power of a power is
-- one power where that does not change its value, and factors that are not negative are taken
-- out of a base.
import QuantumGates.Expression.Builder

namespace QuantumGates

/-! ## Primes -/

/-- The largest divisor that is tried. -/
def largestDivisor : Nat := Nat.pow 2 15

/-- How often `d` divides `n`, and what is left. -/
def divideOut (d : Nat) : Nat → Nat → Nat × Nat
  | 0, n => (0, n)
  | fuel + 1, n =>
    if n % d = 0 ∧ 1 < n then
      let (k, m) := divideOut d fuel (n / d)
      (k + 1, m)
    else (0, n)

/-- The prime factors of `n` from `d` on with their counts. A part without small factors is
left whole. -/
def factorsFrom : Nat → Nat → Nat → List (Nat × Nat)
  | 0, _, n => if n = 1 then [] else [(n, 1)]
  | fuel + 1, d, n =>
    if n = 1 then []
    else if n < d * d then [(n, 1)]
    else
      let (k, m) := divideOut d (bitLength n) n
      let rest := factorsFrom fuel (d + 1) m
      if k = 0 then rest else (d, k) :: rest

def primeFactors (n : Nat) : List (Nat × Nat) :=
  if n = 0 then [] else factorsFrom largestDivisor 2 n

namespace Term

/-! ## Powers of numbers -/

/-- The whole powers of a ratio; nought has no negative ones. -/
def ratPow (q : Rat) (n : Int) : Rat := if 0 ≤ n then Rat.pow q n.toNat else 1 / Rat.pow q n.natAbs

/-- The powers of primes that make up a positive ratio to a power. -/
def rootFactors (q x : Rat) : List (Nat × Rat) :=
  (primeFactors q.num.natAbs).map (fun (p, k) => (p, k * x)) ++
    (primeFactors q.den).map (fun (p, k) => (p, -(k * x)))

/-- A power of a prime as a ratio and a power with an exponent between nought and one. -/
def splitRoot (p : Nat) (x : Rat) : Rat × List Term :=
  let n := x.floor
  let r := x - n
  (ratPow p n, if r = 0 then [] else [power (ofRat p) (ofRat r)])

/-- A ratio to an exact power that is not whole. -/
def exactRoot (build : Builder) (q x : Rat) : Term :=
  let roots := (rootFactors q x).map fun (p, y) => splitRoot p y
  let n := roots.foldl (fun (acc : Rat) r => acc * r.1) 1
  let ts := roots.flatMap (·.2)
  let turn := if q < 0 then [power minusOne (ofRat x)] else []
  match n == 1, turn, ts with
  | true, [], [t] => t
  | true, [t], [] =>
    if 0 ≤ x ∧ x < 1 ∧ x ≠ 1/2 then t
    else
      let (odd, turns) := Factors.turnParts x
      if odd then build.product (minusOne :: turns) else ofFactors turns
  | _, _, _ => build.product (ofRat n :: turn ++ ts)

/-- The digits to which a power of numbers is rounded. -/
def wholePower (d : Nat) (x : BigFloat) (n : Int) : Quantity :=
  .ofResult d (BigComplex.powInt (d + 64) (.ofReal x) n).re

/-- A power of numbers of which one is rounded. Halves of odd numbers of a negative base are
exactly imaginary. -/
def roundedPower (build : Builder) (b x : Quantity) : Term :=
  let d := b.commonDigits x
  let y := x.toBigFloat d
  if b.isZero then
    if x.isZero then one else if x.isNegative then number .unsigned else ofQuantity b
  else
    let v := b.toBigFloat d
    if y.isWhole then ofQuantity (wholePower d v y.nearestInt)
    else
      match v.isNegative, x with
      | true, .exact q =>
        if q.num = 1 ∧ q.den % 2 = 1 then
          build.product [power minusOne (ofRat q), build.power (ofQuantity b.neg) (ofRat q)]
        else ofComplex d (BigComplex.pow (d + 64) (.ofReal v) (.ofReal y))
      | _, _ => ofComplex d (BigComplex.pow (d + 64) (.ofReal v) (.ofReal y))

/-- The most digits that an exact whole power may have. -/
def largestPower : Nat := Nat.pow 2 24

/-- A power of numbers. -/
def numberPower (build : Builder) (b x : Quantity) : Term :=
  match b, x with
  | .exact q, .exact y =>
    if q = 0 then (if y < 0 then number .unsigned else zero)
    else if y.den = 1 then
      if (bitLength q.num.natAbs + bitLength q.den) * y.num.natAbs ≤ largestPower then
        ofRat (ratPow q y.num)
      else power (ofQuantity b) (ofQuantity x)
    else exactRoot build q y
  | _, _ => roundedPower build b x

/-! ## Infinite bases and exponents -/

/-- A base to an infinite power. -/
def infinitePower (b : Term) : Term :=
  match b with
  | number (.infinite false) => infinity
  | number (.infinite true) => undefined
  | number .unsigned => number .unsigned
  | _ =>
    match (if b.isClosed then b.realValue? else none) with
    | none => power b infinity
    | some v =>
      if BigFloat.one.less v.abs then (if v.isNegative then number .unsigned else infinity)
      else if v.abs.less .one then zero
      else undefined

/-- A power of an infinity. -/
def powerOfInfinity (build : Builder) (negative : Bool) (x : Term) : Term :=
  let raw := power (number (.infinite negative)) x
  match x with
  | number (.infinite false) => if negative then undefined else infinity
  | number (.infinite true) => if negative then undefined else zero
  | _ =>
    match (if x.isClosed then x.realValue? else none) with
    | none => raw
    | some v =>
      if v.isZero then undefined
      else if v.isNegative then zero
      else if !negative then infinity
      else
        match x.int? with
        | some n => if n % 2 = 0 then infinity else number (.infinite true)
        | none => build.product [infinity, build.power minusOne x]

/-! ## The rule -/

/-- A power that stays one. A base to one over its logarithm is a power of `e`. -/
def keptPower (build : Builder) (b x : Term) : Term :=
  let inverseLog := power (apply .log [b]) minusOne
  if x.factors.any (·.same inverseLog) then
    build.call .exp (ofFactors (x.factors.filter fun t => !t.same inverseLog))
  else power b x

/-- A power of a power. -/
def nestedPower (build : Builder) (b y x : Term) : Term :=
  let merged := build.power b (build.product [y, x])
  if x.int?.isSome then merged
  else
    match (if y.isClosed then y.realValue? else none) with
    | none => keptPower build (power b y) x
    | some v =>
      if v.abs.less .one || b.isNonNegative then merged
      else keptPower build (power b y) x

/-- The factors of a base that may be taken out of any power, and the others. The magnitude of
a negative number is taken out. -/
def takeOut : List Term → List Term × List Term
  | [] => ([], [])
  | t :: ts =>
    let (out, kept) := takeOut ts
    match t with
    | number (.finite q) =>
      if q.isNegative then
        (if q == .ofInt (-1) then out else ofQuantity q.neg :: out, minusOne :: kept)
      else (t :: out, kept)
    | _ => if t.isNonNegative then (t :: out, kept) else (out, t :: kept)

/-- A power of a product. -/
def powerOfProduct (build : Builder) (ts : List Term) (x : Term) : Term :=
  let raw := keptPower build (product ts) x
  if x.int?.isSome then build.product (ts.map fun t => build.power t x)
  else
    match x with
    | number (.finite _) =>
      let (out, kept) := takeOut ts
      if out.isEmpty then raw
      else
        let rest := match kept with
          | [] => []
          | [t] => [build.power t x]
          | _ => [power (product kept) x]
        build.product (out.map (build.power · x) ++ rest)
    | _ => raw

/-- The rule for powers. -/
def powerOf (build : Builder) (b x : Term) : Term :=
  if x.same (number .unsigned) then undefined
  else if b.same undefined && !x.same zero || x.same undefined then undefined
  else if x.same infinity && !b.same (number .range) then infinitePower b
  else if x.same zero then one
  else if x.same one then b
  else if b.same (number .range) || x.same (number .range) then number .range
  else if b.same one then
    match x with
    | number (.infinite _) => undefined
    | _ => one
  else
    match b with
    | number (.finite q) =>
      match x with
      | number (.finite y) => numberPower build q y
      | number (.infinite _) =>
        if q.isZero then number .unsigned else build.power (build.power b minusOne) infinity
      | _ => keptPower build b x
    | number (.infinite negative) => powerOfInfinity build negative x
    | number .unsigned =>
      match x with
      | number y => if y.isNegative then zero else number .unsigned
      | _ => power b x
    | e => build.call .exp x
    | i =>
      match x.rat? with
      | some r => build.power minusOne (ofRat (r / 2))
      | none => keptPower build b x
    | power c y => nestedPower build c y x
    | product ts => powerOfProduct build ts x
    | _ => keptPower build b x

end Term

end QuantumGates
