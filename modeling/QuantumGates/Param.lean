-- A parameter of a gate: a number, or an expression that is evaluated later. Arithmetic on
-- numbers gives numbers; with an expression it gives a longer expression, in which each operand
-- keeps its meaning because it stands in brackets wherever it could be torn apart. A few
-- shortcuts leave out what changes nothing: adding nought, multiplying by one or by nought.
import QuantumGates.Scalar
import QuantumGates.Text.Identifier

namespace QuantumGates

inductive Param (R : Type)
  | literal (x : R)
  | expression (text : String)
deriving DecidableEq

/-! ## Operands in a text -/

/-- Whether the bracket that is open closes at the very end of a text. -/
def closesAtEnd : Nat → List Char → Bool
  | _, [] => false
  | depth, c :: rest =>
    if c = '(' then closesAtEnd (depth + 1) rest
    else if c = ')' then
      if depth = 1 then rest.isEmpty else closesAtEnd (depth - 1) rest
    else closesAtEnd depth rest

/-- Digits at the head of a text, in any script, and what follows them. -/
def spanDigits (s : List Char) : List Char × List Char := s.span fun c => (digitValue? c).isSome

/-- Whether a text is the power of ten of a number, or nothing. -/
def isPowerOfTen : List Char → Bool
  | [] => true
  | c :: rest =>
    let (digits, tail) := spanDigits (takeSign rest).2
    (c == 'e' || c == 'E') && !digits.isEmpty && tail.isEmpty

/-- Whether a text is a number without a sign. -/
def isNumberText (s : List Char) : Bool :=
  let (whole, rest) := spanDigits s
  match rest with
  | '.' :: tail =>
    let (fraction, rest) := spanDigits tail
    (!whole.isEmpty || !fraction.isEmpty) && isPowerOfTen rest
  | _ => !whole.isEmpty && isPowerOfTen rest

/-- Whether a text begins with a letter or low line. -/
def startsWithLetter : List Char → Bool
  | [] => false
  | c :: _ => isAsciiLetter c || c == '_'

/-- A text without the name before its first bracket. -/
def afterCallee (s : List Char) : List Char :=
  if startsWithLetter s then
    let rest := s.dropWhile fun c => isAsciiLetter c || isAsciiDigit c || c == '_'
    if rest.head? = some '(' then rest else s
  else s

/-- Whether a text is one operand wherever it is put: a name, a number without a sign, a
bracket, or a call. -/
def isAtomic (s : String) : Bool :=
  let cs := s.toList
  isPlainIdentifier cs || isNumberText cs ||
    ((afterCallee cs).head? == some '(' && closesAtEnd 0 (afterCallee cs))

namespace Param

variable {R : Type} [Scalar R]

/-- A number as part of an expression. One with a minus stands in brackets. -/
def literalText (x : R) : String :=
  if !Scalar.isDefined x then "nan"
  else if !Scalar.isFinite x then (if Scalar.isMinus x then "(-oo)" else "oo")
  else if Scalar.isMinus x then "(" ++ Scalar.text x ++ ")"
  else Scalar.text x

/-- A parameter as an operand of a longer expression. -/
def operand : Param R → String
  | literal x => literalText x
  | expression s => if isAtomic s then s else "(" ++ s ++ ")"

/-- A parameter as an argument of a function. -/
def argument : Param R → String
  | literal x => literalText x
  | expression s => s

/-- The expression of two operands. -/
def joined (sign : String) (p q : Param R) : Param R :=
  expression ("(" ++ p.operand ++ " " ++ sign ++ " " ++ q.operand ++ ")")

/-! ## Simple questions -/

def isLiteral : Param R → Bool
  | literal _ => true
  | expression _ => false

/-- Whether a parameter waits for the values of variables. -/
def isSymbolic (p : Param R) : Bool := !p.isLiteral

/-- Whether a parameter is a number equal to a given one. -/
def isNumber (n : R) : Param R → Bool
  | literal x => Scalar.equal x n
  | expression _ => false

def isZero (p : Param R) : Bool := p.isNumber 0
def isOne (p : Param R) : Bool := p.isNumber 1

/-- Two numbers that are equal, or the same expression. -/
def equal : Param R → Param R → Bool
  | literal x, literal y => Scalar.equal x y
  | expression s, expression t => s == t
  | _, _ => false

/-- The number or expression alone. -/
def text : Param R → String
  | literal x => Scalar.text x
  | expression s => s

/-- The number or expression, the latter between quotes. -/
def shown : Param R → String
  | literal x => Scalar.text x
  | expression s => quoted s

/-! ## Arithmetic -/

def neg : Param R → Param R
  | literal x => literal (-x)
  | p => expression ("(-" ++ p.operand ++ ")")

def add (p q : Param R) : Param R :=
  match p, q with
  | literal x, literal y => literal (x + y)
  | _, _ => if p.isZero then q else if q.isZero then p else joined "+" p q

def sub (p q : Param R) : Param R :=
  match p, q with
  | literal x, literal y => literal (x - y)
  | _, _ => if q.isZero then p else if p.isZero then q.neg else joined "-" p q

def mul (p q : Param R) : Param R :=
  match p, q with
  | literal x, literal y => literal (x * y)
  | _, _ =>
    if p.isZero || q.isZero then literal 0
    else if p.isOne then q
    else if q.isOne then p
    else joined "*" p q

/-- The quotient; a number equal to nought is no divisor. -/
def div (p q : Param R) : Except (Fault R) (Param R) :=
  if q.isZero then .error (.divisionByZero p.text)
  else
    match p, q with
    | literal x, literal y => .ok (literal (x / y))
    | _, _ => .ok (if q.isOne then p else if p.isZero then literal 0 else joined "/" p q)

def pow (p q : Param R) : Except (Fault R) (Param R) :=
  match p, q with
  | literal x, literal y => (Scalar.pow? x y).map literal
  | _, _ => .ok (joined "**" p q)

/-- The angle of the point with abscissa `q` and ordinate `p`. -/
def atan2 (p q : Param R) : Param R :=
  match p, q with
  | literal x, literal y => literal (Scalar.atan2 x y)
  | _, _ => expression ("atan2(" ++ p.argument ++ ", " ++ q.argument ++ ")")

/-- A function of a number, or its call on an expression. -/
def apply (name : String) (f : R → Except (Fault R) R) : Param R → Except (Fault R) (Param R)
  | literal x => (f x).map literal
  | p => .ok (expression (name ++ "(" ++ p.argument ++ ")"))

def sin (p : Param R) : Except (Fault R) (Param R) := p.apply "sin" Scalar.sin?
def cos (p : Param R) : Except (Fault R) (Param R) := p.apply "cos" Scalar.cos?
def acos (p : Param R) : Except (Fault R) (Param R) := p.apply "acos" Scalar.acos?
def exp (p : Param R) : Except (Fault R) (Param R) := p.apply "exp" Scalar.exp?
def sqrt (p : Param R) : Except (Fault R) (Param R) := p.apply "sqrt" Scalar.sqrt?
def abs (p : Param R) : Except (Fault R) (Param R) := p.apply "Abs" fun x => .ok (Scalar.abs x)

/-- One with the sign of a number; an undefined number stays undefined. -/
def signum (p : Param R) : Except (Fault R) (Param R) :=
  p.apply "sign" fun x => .ok (if Scalar.isDefined x then Scalar.sign x else x)

def recip (p : Param R) : Except (Fault R) (Param R) := div (literal 1) p

/-! ## Values -/

/-- The number that a parameter stands for, `evaluate` giving the value of an expression. -/
def value (evaluate : String → Except (Fault R) R) : Param R → Except (Fault R) R
  | literal x => .ok x
  | expression s => evaluate s

/-- A parameter with its expression replaced by the value of it. -/
def substitute (evaluate : String → Except (Fault R) R) (p : Param R) :
    Except (Fault R) (Param R) :=
  (p.value evaluate).map literal

end Param

end QuantumGates
