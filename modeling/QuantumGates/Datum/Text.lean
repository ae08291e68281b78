-- How values are written in records and messages: texts between quotes, collections between
-- their brackets, and what has a name of its own by that name.
import QuantumGates.Datum.Basic

namespace QuantumGates

/-! ## Parts of a text -/

/-- Items between brackets, with commas. -/
def enclosed (opening closing : String) (items : List String) : String :=
  opening ++ String.intercalate ", " items ++ closing

/-- A part of a complex number, without a point where it is whole. -/
def partText (x : Float) : String :=
  let s := floatText x
  if s.endsWith ".0" then String.ofList (s.toList.take (s.length - 2)) else s

/-- A part of a complex number with its sign. -/
def signedPartText (x : Float) : String :=
  let s := partText x
  if s.startsWith "-" then s else "+" ++ s

/-- A complex number, in brackets unless its real part is nought. -/
def complexText (re im : Float) : String :=
  if re == 0.0 && !isNegativeFloat re then partText im ++ "j"
  else "(" ++ partText re ++ signedPartText im ++ "j)"

namespace Bindings

/-- The text of a table of variables. -/
def text (b : Bindings Float) : String :=
  enclosed "Calculator(\x7b" "\x7d)" (b.entries.map fun (n, x) => quoted n ++ ": " ++ floatText x)

end Bindings

namespace Param

/-- The text of a parameter as a value of its own. -/
def record (p : Param Float) : String := enclosed "SymbolicFloat(" ")" [p.shown]

end Param

namespace Involved

/-- The text of the involved qubits. -/
def text (i : Involved) : String :=
  match i.kind with
  | .all => "InvolvedQubits.ALL"
  | .none => "InvolvedQubits.NONE"
  | .set => "InvolvedQubits.of(" ++ enclosed "\x7b" "\x7d" (i.qubits.map toString) ++ ")"

end Involved

/-! ## Values -/

namespace Datum

mutual

/-- The text of a value as it stands in a record. -/
def shown : Datum → String
  | nothing => "None"
  | boolean b => Operation.flagText b
  | integer n => toString n
  | number x => floatText x
  | complex re im => complexText re im
  | text s => quoted s
  | list xs => enclosed "[" "]" (shownAll xs)
  | tuple [x] => "(" ++ shown x ++ ",)"
  | tuple xs => enclosed "(" ")" (shownAll xs)
  | set [] => "set()"
  | set xs => enclosed "\x7b" "\x7d" (shownAll xs)
  | fixedSet [] => "frozenset()"
  | fixedSet xs => enclosed "frozenset(\x7b" "\x7d)" (shownAll xs)
  | mapping es => enclosed "\x7b" "\x7d" (shownEntries es)
  | parameter p => p.record
  | bindings b => b.text
  | operation op => op.text
  | circuit c => Circuit.text c
  | involved i => i.text

def shownAll : List Datum → List String
  | [] => []
  | x :: xs => shown x :: shownAll xs

def shownEntries : List (Datum × Datum) → List String
  | [] => []
  | (k, v) :: es => (shown k ++ ": " ++ shown v) :: shownEntries es

end

/-- The text of a value on its own. Only texts and parameters differ from their records. -/
def written : Datum → String
  | text s => s
  | parameter p => p.text
  | d => d.shown

end Datum

end QuantumGates
