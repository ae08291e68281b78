-- Decimal numbers read from text: digits with single low lines between them, a point, and a
-- power of ten. `readFloat?` takes the digits of every script, white space around the number,
-- a sign, and the words for infinity and for no number.
import QuantumGates.Number.Decimal
import QuantumGates.Text.Blank

namespace QuantumGates

/-- The number `digits * 10 ^ exponent`. -/
structure Decimal where
  digits : Nat
  exponent : Int
deriving DecidableEq, Repr

namespace Decimal

/-- The number of digits, one for zero. -/
def width (d : Decimal) : Nat := (digitsOf d.digits).length

/-- The nearest double. Numbers far outside the range of doubles are not computed. -/
def toFloat (d : Decimal) : Float :=
  if d.digits = 0 then 0.0
  else if 400 < d.exponent + d.width then Float.ofBits 0x7FF0000000000000
  else if d.exponent + d.width < -400 then 0.0
  else Float.ofScientific d.digits (decide (d.exponent < 0)) d.exponent.natAbs

end Decimal

/-! ## Scanning -/

/-- The digits after a digit, one low line allowed before each, and what follows them. -/
def moreDigits (digit : Char → Option Nat) : List Char → List Nat × List Char
  | [] => ([], [])
  | [c] =>
    match digit c with
    | some d => ([d], [])
    | none => ([], [c])
  | c :: c' :: rest =>
    match digit c with
    | some d =>
      let (ds, tail) := moreDigits digit (c' :: rest)
      (d :: ds, tail)
    | none =>
      if c = '_' then
        match digit c' with
        | some d =>
          let (ds, tail) := moreDigits digit rest
          (d :: ds, tail)
        | none => ([], c :: c' :: rest)
      else ([], c :: c' :: rest)

/-- A run of digits, and what follows it. -/
def takeDigits (digit : Char → Option Nat) : List Char → List Nat × List Char
  | [] => ([], [])
  | c :: rest =>
    match digit c with
    | some d =>
      let (ds, tail) := moreDigits digit rest
      (d :: ds, tail)
    | none => ([], c :: rest)

/-- The whole number with these digits. -/
def ofDigits (ds : List Nat) : Nat := ds.foldl (fun n d => 10 * n + d) 0

/-- A sign, if there is one: whether it is a minus, and what follows. -/
def takeSign : List Char → Bool × List Char
  | '-' :: rest => (true, rest)
  | '+' :: rest => (false, rest)
  | s => (false, s)

/-- A power of ten after a number, if it is complete. -/
def takeExponent (digit : Char → Option Nat) (s : List Char) : Option Int × List Char :=
  match s with
  | [] => (none, [])
  | c :: rest =>
    if c = 'e' ∨ c = 'E' then
      let (negative, rest') := takeSign rest
      match takeDigits digit rest' with
      | ([], _) => (none, s)
      | (ds, tail) => (some (if negative then -(ofDigits ds : Int) else ofDigits ds), tail)
    else (none, s)

/-- A number at the head of a text, with what follows it. The flag says that neither a point
nor a power of ten was written. -/
def takeNumber? (digit : Char → Option Nat) (s : List Char) :
    Option (Decimal × Bool × List Char) :=
  let (whole, rest) := takeDigits digit s
  let (fraction, pointed, rest) :=
    match rest with
    | '.' :: tail =>
      let (ds, tail') := takeDigits digit tail
      (ds, true, tail')
    | _ => ([], false, rest)
  if whole.isEmpty && fraction.isEmpty then none
  else
    let (power, rest) := takeExponent digit rest
    some (⟨ofDigits (whole ++ fraction), power.getD 0 - fraction.length⟩,
      !pointed && power.isNone, rest)

/-! ## Doubles -/

/-- Infinity and no number, by their words in letters of any case. -/
def wordFloat? (s : List Char) : Option Float :=
  let word := String.ofList (s.map Char.toLower)
  if word = "inf" ∨ word = "infinity" then some (Float.ofBits 0x7FF0000000000000)
  else if word = "nan" then some (Float.ofBits 0x7FF8000000000000)
  else none

/-- The double that a text stands for. -/
def readFloat? (s : String) : Option Float :=
  let (negative, body) := takeSign (trimBlank s.toList)
  let magnitude :=
    match wordFloat? body with
    | some x => some x
    | none =>
      match takeNumber? digitValue? body with
      | some (d, _, []) => some d.toFloat
      | _ => none
  magnitude.map fun x => if negative then -x else x

end QuantumGates
