-- What can be set for the whole library: how far a norm may be from one, the level of the log,
-- and how many parsed expressions are kept. Settings are checked when they are made. A session
-- has settings in force and the ones made last, which are not in force until they are put there.
import QuantumGates.Datum.Grid
import QuantumGates.Datum.Table
import QuantumGates.Text.Upper

namespace QuantumGates

structure Settings where
  unitaryTolerance : Datum
  logLevel : String
  cacheSize : Datum

namespace Settings

def default : Settings := ⟨.number 1e-10, "WARNING", .integer 1024⟩

/-! ## Making settings -/

/-- Whether a value that can be compared with numbers is negative. -/
def isNegative : Datum → Except (Fault Float) Bool
  | .boolean _ => .ok false
  | .integer n => .ok (decide (n < 0))
  | .number x => .ok (decide (x < 0.0))
  | _ => .error .wrongType

/-- Settings with the given values, which are checked in this order. -/
def make (tolerance level size : Datum) : Except (Fault Float) Settings := do
  if ← isNegative tolerance then throw (.negativeTolerance tolerance.written)
  if ← isNegative size then throw (.negativeCacheSize size.written)
  match level with
  | .text s => return ⟨tolerance, upperText s, size⟩
  | _ => throw .noAttribute

/-- The names of the settings. -/
def fieldNames : List String := ["unitary_tolerance", "log_level", "parse_cache_size"]

/-- Settings with some values given by name and the others as they are in `base`. -/
def withValues (base : Settings) (named : List (String × Datum)) : Except (Fault Float) Settings :=
  if named.any fun (n, _) => !fieldNames.contains n then .error .wrongType
  else
    let value (n : String) (d : Datum) := (named.lookup n).getD d
    make (value "unitary_tolerance" base.unitaryTolerance) (value "log_level" (.text base.logLevel))
      (value "parse_cache_size" base.cacheSize)

/-- Settings with what the variables of an environment say. The number of expressions that are
kept is not among them. -/
def withEnvironment (base : Settings) (vars : List (String × String)) :
    Except (Fault Float) Settings := do
  let tolerance ← match vars.lookup "QGATE_UNITARY_TOLERANCE" with
    | some s => (Datum.text s).toDouble.map Datum.number
    | none => .ok base.unitaryTolerance
  let level := (vars.lookup "QGATE_LOG_LEVEL").getD base.logLevel
  make tolerance (.text level) base.cacheSize

/-! ## Using settings -/

/-- The tolerance as a number. A whole number beyond all doubles allows every finite deviation. -/
def tolerance (s : Settings) : Float :=
  match s.unitaryTolerance.real? with
  | some (.ok x) => x
  | _ => 1.7976931348623157e308

/-- Whether as many expressions can be kept as the settings say. A place for the usual number is
there from the start, whatever sort of number asks for it; else the number must be whole and
fit into a word. -/
def checkCacheSize (s : Settings) : Except (Fault Float) Unit :=
  match s.cacheSize with
  | .number x => if x == 1024.0 then .ok () else .error .wrongType
  | .integer n => if n < Nat.pow 2 63 then .ok () else .error .tooLarge
  | _ => .ok ()

/-- The value of an expression under these settings. -/
def evaluate (s : Settings) (b : Bindings Float) (text : String) : Except (Fault Float) Float := do
  s.checkCacheSize
  b.evaluate text

/-- The unitary matrix of a gate, its parameters evaluated without variables. -/
def matrix (s : Settings) (op : Operation (Param Float)) : Except (Fault Float) (CMat Float) :=
  (op.matrix? (Param.value (s.evaluate .empty)) s.tolerance).getD (.error .noAttribute)

/-- The unitary matrix of a circuit on a register, which has no more qubits than needed if its
size is left out. -/
def circuitMatrix (s : Settings) (c : Circuit Float) (register : Datum) :
    Except (Fault Float) (CMat Float) :=
  let unitary := c.unitary (Param.value (s.evaluate .empty)) s.tolerance
  match register with
  | .nothing => unitary c.numberOfQubits
  | _ => do
    let n ← register.index
    if n < 0 then throw .wrongType
    unitary n.toNat

/-- The matrix of canonical values under a tolerance, that of the settings if none is given. The
phase is looked at last. -/
def singleQubitMatrix (s : Settings) (values : List Datum) (tolerance : Datum) :
    Except (Fault Float) (CMat Float) :=
  match values with
  | [a, b, c, d, phase] => do
    let a ← a.threshold
    let b ← b.threshold
    let c ← c.threshold
    let d ← d.threshold
    let tolerance ← match tolerance with
      | .nothing => .ok s.tolerance
      | _ => tolerance.threshold
    let angle := phase.threshold
    let m ← (Canonical.mk a b c d (angle.toOption.getD 0)).matrix tolerance
    let _ ← angle
    return m
  | _ => .error .wrongType

end Settings

/-! ## Sessions -/

structure Session where
  inForce : Settings
  made : Option Settings
  /-- Whether the settings in force are the ones made last. -/
  isMade : Bool

namespace Session

def start : Session := ⟨.default, none, false⟩

/-- The session after settings were made. -/
def withMade (session : Session) (s : Settings) : Session := ⟨session.inForce, some s, false⟩

/-- The settings that new ones are based on. -/
def base (session : Session) (useMade : Bool) : Settings :=
  if useMade then session.made.getD .default else .default

/-- Puts the settings made last in force; the result has those that were in force before. -/
def put (session : Session) : Except (Fault Float) (Session × Settings) :=
  match session.made with
  | some s => .ok (⟨s, some s, true⟩, session.inForce)
  | none => .error (.noSettings .nothing)

/-- A plain value is never put in force. -/
def putValue (d : Datum) : Fault Float := .noSettings d.kind

end Session

end QuantumGates
