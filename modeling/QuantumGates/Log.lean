-- The log of the library. Every module writes to a logger below the one of the library; records
-- reach the outlets if their level is not below the one that is set. A level of nought sets
-- none, so that warnings are the least that is shown.
import QuantumGates.Circuit.Basic
import QuantumGates.Settings

namespace QuantumGates

/-! ## Levels -/

namespace LogLevel

/-- The levels that have a name, a second name standing after the first. -/
def named : List (String × Int) :=
  [("CRITICAL", 50), ("FATAL", 50), ("ERROR", 40), ("WARNING", 30), ("WARN", 30), ("INFO", 20),
   ("DEBUG", 10), ("NOTSET", 0)]

def debug : Int := 10
def warning : Int := 30

/-- The level with a given name in capitals. -/
def ofName? (name : String) : Option Int := named.lookup name

/-- How a level is written in a record. -/
def text (level : Int) : String :=
  match named.find? fun e => e.2 == level with
  | some (name, _) => name
  | none => "Level " ++ toString level

/-- A level given by name as its number, the name in letters of any case. Where nothing is
given the settings name the level. -/
def resolve (s : Settings) (d : Datum) : Except (Fault Float) Datum :=
  let byName (name : String) : Except (Fault Float) Datum :=
    match ofName? (upperText name) with
    | some n => .ok (.integer n)
    | none => .error (.loggingLevel name)
  match d with
  | .nothing => byName s.logLevel
  | .text name => byName name
  | _ => .ok d

end LogLevel

/-! ## Loggers and records -/

/-- The logger of the whole library. -/
def rootLogger : String := "qgate"

/-- The full name of a logger: it lies below the one of the library. -/
def loggerName (name : String) : String :=
  if name = rootLogger ∨ (rootLogger ++ ".").isPrefixOf name then name
  else rootLogger ++ "." ++ name

structure LogRecord where
  level : Int
  logger : String
  message : String
deriving DecidableEq, Repr

/-- What is recorded when an operation was replaced by its circuit. -/
def Operation.expansionRecord (op : Operation (Param Float)) (c : Circuit Float) : LogRecord :=
  ⟨LogLevel.debug, loggerName "decomposition",
    "Decomposed " ++ op.text ++ " into " ++ toString c.length ++ " operations"⟩

/-- What is recorded when a request is refused. -/
def Fault.record? : Fault Float → Option LogRecord
  | noValue text (.unbound names) =>
    some ⟨LogLevel.debug, loggerName "symbolic",
      "Unbound variables " ++ Operation.bracketed (names.map quoted) ++ " in " ++ quoted text⟩
  | notUnitary _ _ _ _ norm =>
    some ⟨LogLevel.debug, loggerName "matrices",
      "Rejecting non-unitary single-qubit parameters with norm " ++ floatText norm⟩
  | _ => none

/-! ## Layout of records -/

/-- A piece of the layout of a line. -/
inductive LogPiece
  | plain (text : String)
  /-- A part of a record, filled up with blanks to a width. -/
  | part (name : String) (leftAligned : Bool) (width : Nat)
deriving DecidableEq, Repr

namespace LogPiece

/-- The part that is named after an opening bracket, and what follows it. -/
def part? (s : List Char) : Option (LogPiece × List Char) :=
  let name := s.takeWhile (· != ')')
  let rest := (s.dropWhile (· != ')')).drop 1
  let left := rest.head? == some '-'
  let rest := if left then rest.drop 1 else rest
  let width := rest.takeWhile isAsciiDigit
  match rest.dropWhile isAsciiDigit with
  | kind :: rest =>
    if (kind == 's' || kind == 'd') && !name.isEmpty then
      some (part (String.ofList name) left (ofDigits (width.filterMap digitValue?)), rest)
    else none
  | [] => none

/-- The pieces of a layout, read with as many steps as it has characters. -/
def read : Nat → List Char → Option (List LogPiece)
  | _, [] => some []
  | 0, _ => none
  | fuel + 1, '%' :: '%' :: rest => (read fuel rest).map (plain "%" :: ·)
  | fuel + 1, '%' :: '(' :: rest => do
    let (piece, rest) ← part? rest
    return piece :: (← read fuel rest)
  | _, '%' :: _ => none
  | fuel + 1, c :: rest => (read fuel rest).map (plain (String.ofList [c]) :: ·)

def isPart : LogPiece → Bool
  | part _ _ _ => true
  | plain _ => false

/-- A text filled up with blanks. -/
def fill (left : Bool) (width : Nat) (s : String) : String :=
  let blanks := String.ofList (List.replicate (width - s.length) ' ')
  if left then s ++ blanks else blanks ++ s

/-- The part of a record with a given name. -/
def partOf? (r : LogRecord) (name : String) : Option String :=
  [("levelname", LogLevel.text r.level), ("levelno", toString r.level), ("name", r.logger),
    ("message", r.message)].lookup name

/-- What a piece shows of a record. -/
def write (r : LogRecord) : LogPiece → Option String
  | plain s => some s
  | part name left width => (partOf? r name).map (fill left width)

end LogPiece

/-- The layout of a line. -/
abbrev LogLayout := List LogPiece

namespace LogLayout

/-- Time, logger, level and message. -/
def standard : String := "%(asctime)s - %(name)s - %(levelname)s - %(message)s"

/-- The layout that a text describes, the standard one for an empty text. It must name a part
of the record. -/
def ofText (s : String) : Except (Fault Float) LogLayout :=
  let cs := (if s.isEmpty then standard else s).toList
  match LogPiece.read cs.length cs with
  | some pieces => if pieces.any LogPiece.isPart then .ok pieces else .error .wrongValue
  | none => .error .wrongValue

/-- A record as text. -/
def line? (layout : LogLayout) (r : LogRecord) : Option String :=
  (layout.mapM (LogPiece.write r)).map String.join

end LogLayout

/-! ## The log -/

/-- Where records go. -/
inductive LogOutlet
  /-- Drops every record. -/
  | null
  | console
  | file
deriving DecidableEq, Repr

def LogOutlet.name : LogOutlet → String
  | null => "NullHandler"
  | console => "StreamHandler"
  | file => "FileHandler"

structure Log where
  level : Int
  layout : LogLayout
  outlets : List LogOutlet
deriving DecidableEq, Repr

namespace Log

/-- The log before it is set up. -/
def silent : Log := ⟨0, [], [.null]⟩

/-- Sets up the console, and a file if one is wanted. Outlets of an earlier set-up are dropped. -/
def setUp (s : Settings) (level : Datum) (layout : String) (file : Bool) :
    Except (Fault Float) Log := do
  let level ← LogLevel.resolve s level
  let layout ← LogLayout.ofText layout
  return ⟨← level.index, layout, [.null, .console] ++ (if file then [.file] else [])⟩

/-- The least level that is shown. -/
def threshold (log : Log) : Int := if log.level = 0 then LogLevel.warning else log.level

/-- Whether a record is shown. -/
def shows (log : Log) (r : LogRecord) : Bool :=
  decide (0 < r.level) && decide (log.threshold ≤ r.level) && decide (log.level ≤ r.level)

/-- The lines that an outlet gets of some records. -/
def lines (log : Log) (outlet : LogOutlet) (records : List LogRecord) : List String :=
  if log.outlets.contains outlet && outlet != .null then
    (records.filter log.shows).filterMap log.layout.line?
  else []

end Log

end QuantumGates
