-- The names that mean something in an expression: the functions, the constants, and the words
-- that the grammar keeps for itself. Every other name is a variable.
namespace QuantumGates

/-- The functions of an expression. -/
inductive Fn
  | sin | cos | tan | asin | acos | atan | atan2 | sinh | cosh | tanh | exp | log | sqrt | abs
  | sign
deriving DecidableEq, Repr

/-- The functions by their names; one of them has two. -/
def functionNames : List (String × Fn) :=
  [("sin", .sin), ("cos", .cos), ("tan", .tan), ("asin", .asin), ("acos", .acos),
   ("atan", .atan), ("atan2", .atan2), ("sinh", .sinh), ("cosh", .cosh), ("tanh", .tanh),
   ("exp", .exp), ("log", .log), ("sqrt", .sqrt), ("abs", .abs), ("Abs", .abs),
   ("sign", .sign)]

/-- The function with a name. -/
def Fn.ofName? (name : String) : Option Fn := functionNames.lookup name

/-- The counts of arguments that a function takes. -/
def Fn.takes (f : Fn) (count : Nat) : Bool :=
  match f with
  | .atan2 => count == 2
  | .log | .sqrt => count == 1 || count == 2
  | _ => count == 1

/-- Half a turn, infinity, and a number that is undefined. -/
inductive Constant
  | pi | infinity | undefined
deriving DecidableEq, Repr

def Constant.ofName? (name : String) : Option Constant :=
  if name = "pi" then some .pi
  else if name = "oo" then some .infinity
  else if name = "nan" then some .undefined
  else none

/-- Names of kinds of numbers, which are no numbers themselves. -/
def numberKindNames : List String := ["Integer", "Float", "Rational", "Symbol"]

/-- The words that are no names. -/
def reservedWords : List String :=
  ["False", "None", "True", "and", "as", "assert", "async", "await", "break", "class",
   "continue", "def", "del", "elif", "else", "except", "finally", "for", "from", "global",
   "if", "import", "in", "is", "lambda", "nonlocal", "not", "or", "pass", "raise", "return",
   "try", "while", "with", "yield"]

end QuantumGates
