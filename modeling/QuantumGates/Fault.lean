-- Why a request is refused. A fault names its cause and carries the values that show it; its
-- wording is one function, so that no other module spells out a message.
import QuantumGates.Text.Quoted

namespace QuantumGates

/-! ## Kinds of values -/

/-- What sort of thing a value is, as far as messages tell it. -/
inductive ValueKind
  | nothing
  | boolean
  | integer
  | number
  | complex
  | text
  | list
  | tuple
  | mapping
  | set
  | fixedSet
  | parameter
  | bindings
  | circuit
  | involved
  /-- An operation, with the group of gates it belongs to and its own name. -/
  | operation (group name : String)
deriving DecidableEq

/-- The name of a kind inside its angle brackets. -/
def ValueKind.path : ValueKind → String
  | nothing => "NoneType"
  | boolean => "bool"
  | integer => "int"
  | number => "float"
  | complex => "complex"
  | text => "str"
  | list => "list"
  | tuple => "tuple"
  | mapping => "dict"
  | set => "set"
  | fixedSet => "frozenset"
  | parameter => "qgate.symbolic.SymbolicFloat"
  | bindings => "qgate.symbolic.Calculator"
  | circuit => "qgate.circuit.Circuit"
  | involved => "qgate.operation.InvolvedQubits"
  | operation group name => "qgate." ++ group ++ "." ++ name

/-- The kind as messages write it. -/
def ValueKind.label (k : ValueKind) : String := "<class " ++ quoted k.path ++ ">"

/-- The last part of the name of a kind. -/
def ValueKind.shortName (k : ValueKind) : String := (k.path.splitOn ".").getLastD k.path

/-! ## Causes -/

/-- Why an expression stands for no number. -/
inductive NoValue
  /-- The text does not follow the grammar. -/
  | malformed
  /-- The text holds something else than arithmetic, or is the bare name of a function. -/
  | notArithmetic (node : Option String)
  /-- Names that are left without a value. -/
  | unbound (names : List String)
  /-- The value is infinite, undefined or not real. -/
  | notFinite
deriving DecidableEq

/-- What is wrong with the arguments that an operation is built from. -/
inductive ArgumentFault
  | missing (field : String)
  | tooMany
  | repeated (field : String)
  | unexpected (field : String)
deriving DecidableEq

/-- Why a request is refused, for numbers of type `R`. -/
inductive Fault (R : Type)
  -- parameters and their values
  | noValue (expression : String) (reason : NoValue)
  | variableName (shown : String)
  | variableUnset (shown : String)
  | noParameter (kind : ValueKind)
  | noExpression (kind : ValueKind)
  | noBindings (kind : ValueKind)
  | parameterCount (shown : String)
  | parameterKind (shown : String)
  | divisionByZero (dividend : String)
  | angleArgument
  | undefined
  | tooLarge
  | malformedNumber
  -- operations
  | negativeQubit (qubit : Int)
  | qubitList (kind : ValueKind)
  | parameterList (kind : ValueKind)
  | noText (kind : ValueKind)
  | abstractOperation (name : String)
  | arguments (name : String) (fields : List String) (fault : ArgumentFault)
  | unknownOperation (shown : String)
  | missingField (field : String)
  | recordCount (shown : String)
  | otherFamily (name family : String)
  | unmappedQubit (qubit : Nat)
  | immutable (name : String)
  | involvedKind (shown : String)
  -- products and powers
  | notSingleQubit (kind : ValueKind)
  | differentQubits (left right : Nat)
  | noPower (kind : ValueKind)
  -- matrices and circuits
  | notUnitary (alphaRe alphaIm betaRe betaIm norm : R)
  | tooFewQubits (builder : String) (least given : Nat)
  | noQubits (name : String)
  | matrixShape (shape : List Nat) (qubits : Nat)
  | repeatedQubits (qubits : List Int)
  | qubitsBeyond (qubits : List Int) (register : Int)
  | noMatrix (name : String)
  | notAnOperation (kind : ValueKind)
  -- settings and logging
  | negativeTolerance (shown : String)
  | negativeCacheSize (shown : String)
  | noSettings (kind : ValueKind)
  | loggingLevel (name : String)
  -- values of the wrong sort, where no more is said
  | wrongType
  | wrongValue
  | noAttribute
  | outOfBounds
deriving DecidableEq

/-! ## Wording -/

namespace Fault

/-- Names one after another. -/
def commaList (names : List String) : String := String.intercalate ", " names

/-- Lengths in brackets, a comma after a single one. -/
def shapeText : List Nat → String
  | [n] => "(" ++ toString n ++ ",)"
  | ns => "(" ++ commaList (ns.map toString) ++ ")"

def intList (qs : List Int) : String := "[" ++ commaList (qs.map toString) ++ "]"

def argumentText : ArgumentFault → String
  | .missing f => "missing a required argument: " ++ quoted f
  | .tooMany => "too many positional arguments"
  | .repeated f => "multiple values for argument " ++ quoted f
  | .unexpected f => "got an unexpected keyword argument " ++ quoted f

variable {R : Type}

/-- The wording of a fault, `number` being how numbers are written. Faults that only say that
a value is of the wrong sort have none, nor has the lack of a value, which is told by its
reason. -/
def message (number : R → String) : Fault R → Option String
  | noValue _ _ => none
  | variableName s => some ("Invalid variable name " ++ s)
  | variableUnset s => some ("Variable " ++ s ++ " not set")
  | noParameter k => some ("Cannot create SymbolicFloat from " ++ k.label)
  | noExpression k => some ("Cannot evaluate " ++ k.label)
  | noBindings k => some ("Cannot use " ++ k.label ++ " as parameter bindings")
  | parameterCount s => some ("Expected exactly one of 'Float' or 'Str', got " ++ s)
  | parameterKind s => some ("Unknown SymbolicFloat kind " ++ s)
  | divisionByZero s => some ("Division of " ++ s ++ " by zero")
  | angleArgument => some "atan2 requires a numeric or symbolic argument"
  | undefined => none
  | tooLarge => none
  | malformedNumber => none
  | negativeQubit q => some ("Qubit indices must be non-negative, got " ++ toString q)
  | qubitList k => some ("Expected a list of qubits, got " ++ k.label)
  | parameterList k => some ("Expected a list of parameters, got " ++ k.label)
  | noText k => some ("Expected a str, got " ++ k.label)
  | abstractOperation n => some ("Cannot instantiate abstract operation " ++ n)
  | arguments n fields f => some (n ++ "(" ++ commaList fields ++ "): " ++ argumentText f)
  | unknownOperation s => some ("Unknown operation " ++ s)
  | missingField f => some f
  | recordCount s => some ("Expected a single tagged record, got " ++ s)
  | otherFamily n family => some (n ++ " is not a " ++ family)
  | unmappedQubit q => some ("Qubit " ++ toString q ++ " can not be remapped: not in mapping")
  | immutable n => some (n ++ " is immutable")
  | involvedKind s => some ("Unknown InvolvedQubits kind " ++ s)
  | notSingleQubit k => some ("Cannot multiply " ++ k.shortName ++ ": not a single-qubit gate")
  | differentQubits a b =>
    some ("Qubits " ++ toString a ++ " and " ++ toString b ++
      " incompatible: gates must act on the same qubit to be multiplied")
  | noPower k => some (k.shortName ++ " can not be raised to a power")
  | notUnitary ar ai br bi norm =>
    some ("Resulting gate matrix is not unitary: alpha_r=" ++ number ar ++ ", alpha_i=" ++
      number ai ++ ", beta_r=" ++ number br ++ ", beta_i=" ++ number bi ++ ", norm=" ++
      number norm)
  | tooFewQubits b least given =>
    some (b ++ " needs at least " ++ toString least ++ " qubit(s), got " ++ toString given)
  | noQubits n => some (n ++ " needs at least one qubit")
  | matrixShape s k =>
    some ("Matrix of shape " ++ shapeText s ++ " does not act on " ++ toString k ++ " qubits")
  | repeatedQubits qs => some ("Gate qubits " ++ intList qs ++ " contain duplicates")
  | qubitsBeyond qs n =>
    some ("Gate qubits " ++ intList qs ++ " do not fit into " ++ toString n ++ " qubits")
  | noMatrix n => some (n ++ " has no unitary matrix")
  | notAnOperation k => some ("Cannot add " ++ k.label ++ " to a Circuit")
  | negativeTolerance s => some ("unitary_tolerance must be non-negative, got " ++ s)
  | negativeCacheSize s => some ("parse_cache_size must be non-negative, got " ++ s)
  | noSettings k => some ("Expected QgateConfig, got " ++ k.label)
  | loggingLevel n => some ("Unknown logging level: " ++ n)
  | wrongType => none
  | wrongValue => none
  | noAttribute => none
  | outOfBounds => none

end Fault

end QuantumGates
