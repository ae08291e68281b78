-- Doubles as decimal text. The shortest form has the fewest digits that read back to the
-- same double, and of those the ones nearest to it; `places` and `significant` round the
-- exact value, a half going to the even digit. How digits are laid out is one record.
import QuantumGates.Number.BigFloat

namespace QuantumGates

/-! ## A double as a ratio -/

/-- The sign bit. -/
def isNegativeFloat (x : Float) : Bool := x.toBits.toNat / Nat.pow 2 63 == 1

/-- The magnitude `n * 2 ^ e` of a finite double, with the `n` and `e` of its bits. -/
def floatParts (x : Float) : Nat × Int :=
  let bits := x.toBits.toNat
  let e : Nat := bits / Nat.pow 2 52 % 2048
  let f : Nat := bits % Nat.pow 2 52
  if e = 0 then (f, -1074) else (f + Nat.pow 2 52, (e : Int) - 1075)

/-- `n * 2 ^ e` as a quotient of whole numbers. -/
def ratioOf (n : Nat) (e : Int) : Nat × Nat :=
  if 0 ≤ e then (n * Nat.pow 2 e.toNat, 1) else (n, Nat.pow 2 (-e).toNat)

/-- Whether `10 ^ k ≤ num / den`. -/
def powerOfTenLe (k : Int) (num den : Nat) : Bool :=
  if 0 ≤ k then decide (den * Nat.pow 10 k.toNat ≤ num)
  else decide (den ≤ num * Nat.pow 10 (-k).toNat)

/-- Climbs from `k` to the greatest power of ten that is not above the quotient. -/
def climbToOrder (num den : Nat) : Nat → Int → Int
  | 0, k => k
  | fuel + 1, k => if powerOfTenLe (k + 1) num den then climbToOrder num den fuel (k + 1) else k

/-- The exponent of the first decimal digit of a positive quotient. -/
def decimalOrder (num den : Nat) : Int :=
  let bits : Int := (bitLength num : Int) - bitLength den
  climbToOrder num den 4 (Int.fdiv ((bits - 1) * 30103) 100000 - 2)

/-- `num / den` in units of `10 ^ k`, as a quotient. -/
def inUnits (k : Int) (num den : Nat) : Nat × Nat :=
  if 0 ≤ k then (num, den * Nat.pow 10 k.toNat) else (num * Nat.pow 10 (-k).toNat, den)

/-! ## The fewest digits -/

/-- The numbers that round to a double: those from `low` to `high` over `den`, the ends
among them if `closed` is set, with the double itself at `value`. -/
structure RoundingInterval where
  low : Nat
  value : Nat
  high : Nat
  den : Nat
  closed : Bool

/-- The rounding interval of `n * 2 ^ e`. Below a power of two the doubles lie closer. -/
def RoundingInterval.of (n : Nat) (e : Int) : RoundingInterval :=
  let below := if n = Nat.pow 2 52 ∧ -1074 < e then 1 else 2
  let (scale, den) := ratioOf 1 (e - 2)
  ⟨(4 * n - below) * scale, 4 * n * scale, (4 * n + 2) * scale, den, n % 2 == 0⟩

/-- Whether `digits * 10 ^ k` lies in the interval. -/
def RoundingInterval.holds (i : RoundingInterval) (digits : Nat) (k : Int) : Bool :=
  let (num, den) :=
    if 0 ≤ k then (digits * Nat.pow 10 k.toNat, 1) else (digits, Nat.pow 10 (-k).toNat)
  let scaled := num * i.den
  if i.closed then decide (i.low * den ≤ scaled) && decide (scaled ≤ i.high * den)
  else decide (i.low * den < scaled) && decide (scaled < i.high * den)

/-- The neighbour of the value on the grid of `10 ^ k` that lies in the interval, the
nearer one if both do. -/
def RoundingInterval.onGrid? (i : RoundingInterval) (k : Int) : Option Nat :=
  let (num, den) := inUnits k i.value i.den
  let nearest := divEven num den
  let below := num / den
  if i.holds nearest k then some nearest
  else if i.holds below k then some below
  else if i.holds (below + 1) k then some (below + 1)
  else none

/-- Tries grids of more and more digits, from the order of the value downwards. -/
def RoundingInterval.search (i : RoundingInterval) : Nat → Int → Nat × Int
  | 0, k => (divEven (inUnits k i.value i.den).1 (inUnits k i.value i.den).2, k)
  | fuel + 1, k =>
    match i.onGrid? k with
    | some d => (d, k)
    | none => i.search fuel (k - 1)

/-- The fewest digits of a positive double, as a whole number and a power of ten. -/
def shortestDigits (n : Nat) (e : Int) : Nat × Int :=
  let i := RoundingInterval.of n e
  i.search 17 (decimalOrder i.value i.den)

/-! ## Layout -/

/-- The digits of a whole number. -/
def digitsOf (n : Nat) : List Char := Nat.toDigits 10 n

/-- `n` with at least `width` digits. -/
def padded (width n : Nat) : List Char :=
  let ds := digitsOf n
  List.replicate (width - ds.length) '0' ++ ds

/-- How a number is laid out once its digits are known. -/
structure NumberLayout where
  /-- The least exponent of the first digit that is written without an exponent part. -/
  positionalFrom : Int
  /-- The first exponent that needs an exponent part again. -/
  positionalBelow : Int
  /-- The least number of digits in the exponent part. -/
  exponentWidth : Nat
  /-- Written after the digits of a whole number. -/
  wholeTail : String

/-- Numbers between `0.0001` and `1e16` are written in full, whole ones with `.0`. -/
def NumberLayout.plain : NumberLayout := ⟨-4, 16, 2, ".0"⟩

/-- The exponent part: a sign and at least the digits that the layout asks for. -/
def NumberLayout.exponent (l : NumberLayout) (k : Int) : List Char :=
  ['e', if k < 0 then '-' else '+'] ++ padded l.exponentWidth k.natAbs

/-- Drops zeros at the end. -/
def dropEndZeros (ds : List Char) : List Char := (ds.reverse.dropWhile (· == '0')).reverse

/-- Lays out digits whose first has the weight `10 ^ k`. -/
def NumberLayout.write (l : NumberLayout) (ds : List Char) (k : Int) : List Char :=
  if k < l.positionalFrom ∨ l.positionalBelow ≤ k then
    match ds with
    | [] => []
    | [d] => d :: l.exponent k
    | d :: rest => d :: '.' :: rest ++ l.exponent k
  else if k < 0 then
    ['0', '.'] ++ List.replicate ((-k).toNat - 1) '0' ++ ds
  else
    let whole := k.toNat + 1
    if ds.length ≤ whole then
      ds ++ List.replicate (whole - ds.length) '0' ++ l.wholeTail.toList
    else ds.take whole ++ '.' :: ds.drop whole

/-- The text of a double in the shortest form that reads back. -/
def floatText (x : Float) : String :=
  if x.isNaN then "nan"
  else
    let sign := if isNegativeFloat x then "-" else ""
    if x.isInf then sign ++ "inf"
    else
      let (n, e) := floatParts x
      if n = 0 then sign ++ "0.0"
      else
        let (d, k) := shortestDigits n e
        let ds := digitsOf d
        sign ++ String.ofList (NumberLayout.plain.write (dropEndZeros ds) (k + ds.length - 1))

/-! ## A set number of digits -/

/-- `num / den` with `places` digits after the point. -/
def ratioPlaces (places num den : Nat) : List Char :=
  let n := divEven (num * Nat.pow 10 places) den
  let ds := padded (places + 1) n
  ds.take (ds.length - places) ++ (if places = 0 then [] else '.' :: ds.drop (ds.length - places))

/-- The text of a double with a set number of digits after the point. -/
def placesText (places : Nat) (x : Float) : String :=
  if x.isNaN then "nan"
  else
    let sign := if isNegativeFloat x then "-" else ""
    if x.isInf then sign ++ "inf"
    else
      let (n, e) := floatParts x
      let (num, den) := ratioOf n e
      sign ++ String.ofList (ratioPlaces places num den)

/-- The text of a double with one digit before the point and `places` after it. -/
def scientificText (places : Nat) (x : Float) : String :=
  if x.isNaN then "nan"
  else
    let sign := if isNegativeFloat x then "-" else ""
    if x.isInf then sign ++ "inf"
    else
      let (n, e) := floatParts x
      let (num, den) := ratioOf n e
      let k := if n = 0 then 0 else decimalOrder num den
      let (num, den) := inUnits (k - places) num den
      let d := divEven num den
      -- rounding up may give one digit more
      let (d, k) := if d = Nat.pow 10 (places + 1) then (d / 10, k + 1) else (d, k)
      let ds := padded (places + 1) d
      let body := ds.take 1 ++ (if places = 0 then [] else '.' :: ds.drop 1)
      sign ++ String.ofList (body ++ NumberLayout.plain.exponent k)

end QuantumGates
