-- The words of the expression language: names, numbers, quoted texts and signs. Blanks and
-- comments separate them, as do line ends inside brackets or after a backslash; outside
-- brackets a line end closes the expression, and only blanks and comments may follow it.
-- A text is read from left to right, each time taking the longest word.
import QuantumGates.Number.Reading
import QuantumGates.Text.Identifier

namespace QuantumGates

/-! ## Words -/

/-- The signs that are no letters or digits. -/
inductive Sign
  | plus | minus | star | power | slash | doubleSlash | percent | at
  | shiftLeft | shiftRight | ampersand | bar | caret | tilde
  | less | greater | lessEqual | greaterEqual | equal | unequal
  | openRound | closeRound | openSquare | closeSquare | openCurly | closeCurly
  | comma | colon | dot | define | ellipsis | assign
  /-- A sign that no expression holds. -/
  | foreign
deriving DecidableEq, Repr

/-- What a quoted text is: plain, bytes, or a template with places to fill in. -/
inductive QuoteKind
  | plain
  | bytes
  | template
deriving DecidableEq, Repr

inductive Token
  | name (id : String)
  | whole (n : Nat)
  | decimal (d : Decimal)
  | imaginary
  | quoted (kind : QuoteKind)
  | sign (s : Sign)
deriving DecidableEq, Repr

/-- The spellings of the signs, longer ones before those that they begin with. -/
def signSpellings : List (String × Sign) :=
  [("**=", .foreign), ("//=", .foreign), (">>=", .foreign), ("<<=", .foreign),
   ("...", .ellipsis), ("**", .power), ("//", .doubleSlash), ("<<", .shiftLeft),
   (">>", .shiftRight), ("<=", .lessEqual), (">=", .greaterEqual), ("==", .equal),
   ("!=", .unequal), ("<>", .foreign), (":=", .define), ("->", .foreign), ("+=", .foreign),
   ("-=", .foreign), ("*=", .foreign), ("/=", .foreign), ("%=", .foreign), ("@=", .foreign),
   ("&=", .foreign), ("|=", .foreign), ("^=", .foreign), ("+", .plus), ("-", .minus),
   ("*", .star), ("/", .slash), ("%", .percent), ("@", .at), ("&", .ampersand), ("|", .bar),
   ("^", .caret), ("~", .tilde), ("<", .less), (">", .greater), ("(", .openRound),
   (")", .closeRound), ("[", .openSquare), ("]", .closeSquare), ("\x7b", .openCurly),
   ("\x7d", .closeCurly), (",", .comma), (":", .colon), (".", .dot), ("=", .assign),
   (";", .foreign)]

/-- The text after a given beginning. -/
def afterStart? : List Char → List Char → Option (List Char)
  | [], s => some s
  | _ :: _, [] => none
  | a :: as, c :: cs => if a = c then afterStart? as cs else none

/-- The sign at the head of a text, and what follows it. -/
def takeSymbol? (s : List Char) : Option (Sign × List Char) :=
  signSpellings.findSome? fun (spelling, sign) =>
    (afterStart? spelling.toList s).map fun rest => (sign, rest)

/-! ## Numbers -/

/-- The value of an ASCII digit. -/
def asciiDigit? (c : Char) : Option Nat :=
  if isAsciiDigit c then some (c.toNat - 48) else none

/-- The value of a digit in a base up to sixteen. -/
def baseDigit? (base : Nat) (c : Char) : Option Nat :=
  let n :=
    if isAsciiDigit c then c.toNat - 48
    else if Char.within c 'a' 'f' then c.toNat - 87
    else if Char.within c 'A' 'F' then c.toNat - 55
    else base
  if n < base then some n else none

/-- The words that may follow a number without a blank. -/
def wordsAfterNumber : List String := ["and", "else", "for", "if", "in", "is", "or", "not"]

/-- Whether a number may end where this text begins. -/
def numberMayEnd (s : List Char) : Bool :=
  match s with
  | [] => true
  | c :: _ =>
    wordsAfterNumber.any (fun w => (afterStart? w.toList s).isSome) ||
      !(isAsciiLetter c || isAsciiDigit c || c == '_' || decide (128 ≤ c.toNat))

/-- The base that a letter after a nought announces. -/
def baseOf? (c : Char) : Option Nat :=
  if c = 'x' ∨ c = 'X' then some 16
  else if c = 'o' ∨ c = 'O' then some 8
  else if c = 'b' ∨ c = 'B' then some 2
  else none

/-- The digits of a whole number in another base than ten, after its letter. -/
def takeBased? (base : Nat) (s : List Char) : Option (Token × List Char) :=
  let s := match s with
    | '_' :: rest => rest
    | _ => s
  match takeDigits (baseDigit? base) s with
  | ([], _) => none
  | (ds, rest) =>
    if numberMayEnd rest then some (.whole (ds.foldl (fun n d => base * n + d) 0), rest) else none

/-- The digits that a whole decimal number has at most. -/
def longestWhole : Nat := 4300

/-- A decimal number. A whole one of several digits does not start with a nought, unless it is
nought. -/
def takeDecimal? (s : List Char) : Option (Token × List Char) :=
  match takeNumber? asciiDigit? s with
  | none => none
  | some (d, isWhole, rest) =>
    match rest with
    | 'j' :: tail | 'J' :: tail => if numberMayEnd tail then some (.imaginary, tail) else none
    | _ =>
      if !numberMayEnd rest then none
      else if isWhole then
        if s.head? = some '0' ∧ d.digits ≠ 0 then none
        else if Nat.pow 10 longestWhole ≤ d.digits then none
        else some (.whole d.digits, rest)
      else some (.decimal d, rest)

/-- The number at the head of a text. -/
def takeNumberToken? (s : List Char) : Option (Token × List Char) :=
  match s with
  | '0' :: c :: rest =>
    match baseOf? c with
    | some base => takeBased? base rest
    | none => takeDecimal? s
  | _ => takeDecimal? s

/-! ## Quoted texts -/

/-- What the letters before a quote say: the kind, and whether backslashes stand for themselves. -/
def quoteStart? (letters : List Char) : Option (QuoteKind × Bool) :=
  let word := String.ofList (letters.map Char.toLower)
  if word = "" ∨ word = "u" then some (.plain, false)
  else if word = "r" then some (.plain, true)
  else if word = "b" then some (.bytes, false)
  else if word = "br" ∨ word = "rb" then some (.bytes, true)
  else if word = "f" then some (.template, false)
  else if word = "fr" ∨ word = "rf" then some (.template, true)
  else none

/-- The body of a quoted text up to its closing quotes, and what follows them. A text between
single quotes ends with its line. -/
def takeQuoted? (quote : Char) (triple : Bool) : List Char → Option (List Char × List Char)
  | [] => none
  | [c] => if c = quote ∧ !triple then some ([], []) else none
  | c :: c' :: rest =>
    if c = '\\' then (takeQuoted? quote triple rest).map fun (b, t) => (c :: c' :: b, t)
    else if c = '\n' ∧ !triple then none
    else if c = quote then
      if triple then
        match c', rest with
        | d, e :: tail =>
          if d = quote ∧ e = quote then some ([], tail)
          else (takeQuoted? quote triple (c' :: rest)).map fun (b, t) => (c :: b, t)
        | _, [] => none
      else some ([], c' :: rest)
    else (takeQuoted? quote triple (c' :: rest)).map fun (b, t) => (c :: b, t)

/-- Whether the text begins with `n` hexadecimal digits. -/
def startsHex (n : Nat) (s : List Char) : Bool :=
  decide (n ≤ s.length) && (s.take n).all fun c => (baseDigit? 16 c).isSome

/-- Whether the escapes by number in a body are complete. -/
def escapesComplete (kind : QuoteKind) : List Char → Bool
  | [] => true
  | [_] => true
  | '\\' :: c :: rest =>
    (if c = 'x' then startsHex 2 rest
     else if kind = .bytes then true
     else if c = 'u' then startsHex 4 rest
     else if c = 'U' then startsHex 8 rest
     else if c = 'N' then rest.head? = some (Char.ofNat 123)
     else true) && escapesComplete kind rest
  | _ :: rest => escapesComplete kind rest

/-- Whether the places to fill in are closed, doubled brackets standing for themselves. -/
def placesClosed : Nat → List Char → Bool
  | depth, [] => depth == 0
  | depth, [c] => if c.toNat = 123 then false else if c.toNat = 125 then depth == 1 else depth == 0
  | depth, c :: c' :: rest =>
    if c.toNat = 123 then
      if c'.toNat = 123 ∧ depth = 0 then placesClosed 0 rest
      else if c'.toNat = 125 ∧ depth = 0 then false
      else placesClosed (depth + 1) (c' :: rest)
    else if c.toNat = 125 then
      if depth = 0 then c'.toNat == 125 && placesClosed 0 rest
      else placesClosed (depth - 1) (c' :: rest)
    else placesClosed depth (c' :: rest)

/-- A quoted text at the head of a text, its letters before it included. -/
def takeText? (s : List Char) : Option (Option Token × List Char) :=
  let letters := s.takeWhile isAsciiLetter
  match quoteStart? letters, s.drop letters.length with
  | some (kind, raw), q :: rest =>
    if q = '\'' ∨ q = '"' then
      let body :=
        match rest with
        | a :: b :: tail =>
          if a = q ∧ b = q then takeQuoted? q true tail else takeQuoted? q false rest
        | _ => takeQuoted? q false rest
      match body with
      | none => some (none, [])
      | some (b, tail) =>
        let good := (raw || escapesComplete kind b) &&
          (kind != .bytes || b.all fun c => decide (c.toNat < 128)) &&
          (kind != .template || placesClosed 0 b)
        some (if good then some (.quoted kind) else none, tail)
    else none
  | _, _ => none

/-! ## The whole text -/

/-- Blanks inside a line. -/
def isInlineBlank (c : Char) : Bool := c == ' ' || c == '\t' || c == '\x0c'

/-- Whether nothing but blanks, line ends and comments is left. -/
def onlyRemarks : List Char → Bool
  | [] => true
  | c :: rest =>
    if c = '#' then onlyRemarksAfter rest
    else (isInlineBlank c || c == '\n') && onlyRemarks rest
where
  /-- The same inside a comment. -/
  onlyRemarksAfter : List Char → Bool
    | [] => true
    | c :: rest => if c = '\n' then onlyRemarks rest else onlyRemarksAfter rest

/-- Brackets are nested this deep at most. -/
def deepestBracket : Nat := 200

/-- Whether a depth is beyond a limit, if there is one. -/
def exceeds (limit : Option Nat) (depth : Nat) : Bool := limit.any fun deepest => deepest < depth

/-- How the depth of brackets changes at a sign. It never falls below nought. -/
def depthAfter (depth : Nat) : Sign → Nat
  | .openRound | .openSquare | .openCurly => depth + 1
  | .closeRound | .closeSquare | .closeCurly => depth - 1
  | _ => depth

/-- The brackets that a word gets when it is evaluated: a number is a call, and so is a name with
letters of another script. -/
def Token.wrapping : Token → Nat
  | .whole _ | .decimal _ => 1
  | .name id => if id.toList.all fun c => decide (c.toNat < 128) then 0 else 1
  | _ => 0

/-- How deep the brackets of words are nested that begin at a depth, those included that the words
get when they are evaluated. -/
def deepest : Nat → List Token → Nat
  | depth, [] => depth
  | depth, t :: ts =>
    let next := match t with
      | .sign g => depthAfter depth g
      | _ => depth
    max (depth + t.wrapping) (deepest next ts)

/-- The word at the head of a text that does not begin with a blank. -/
def takeToken? (s : List Char) : Option (Token × List Char) :=
  match s with
  | [] => none
  | c :: rest =>
    match takeText? s with
    | some (some t, tail) => some (t, tail)
    | some (none, _) => none
    | none =>
      if isIdentifierStart c then
        some (.name (String.ofList (c :: rest.takeWhile isIdentifierPart)),
          rest.dropWhile isIdentifierPart)
      else if isAsciiDigit c || (c == '.' && (rest.head?.map isAsciiDigit).getD false) then
        takeNumberToken? s
      else (takeSymbol? s).map fun (sign, tail) => (.sign sign, tail)

/-- The words of a text, read with enough fuel. `begun` says that a word was read before. -/
def tokensFrom (limit : Option Nat) : Nat → Nat → Bool → List Char → Option (List Token)
  | 0, _, _, s => if s.isEmpty then some [] else none
  | fuel + 1, depth, begun, s =>
    match s with
    | [] => some []
    | '\\' :: '\n' :: rest => if rest.isEmpty then none else tokensFrom limit fuel depth begun rest
    | c :: rest =>
      if isInlineBlank c then
        -- the first line that holds a word is not indented
        tokensFrom limit fuel depth begun rest
      else if c = '#' then tokensFrom limit fuel depth begun (rest.dropWhile (· != '\n'))
      else if c = '\n' then
        if 0 < depth then tokensFrom limit fuel depth begun rest
        else if begun then (if onlyRemarks rest then some [] else none)
        else if (rest.head?.map isInlineBlank).getD false then none
        else tokensFrom limit fuel depth begun rest
      else
        match takeToken? s with
        | none => none
        | some (t, tail) =>
          let depth := match t with
            | .sign g => depthAfter depth g
            | _ => depth
          if exceeds limit depth then none
          else (tokensFrom limit fuel depth true tail).map (t :: ·)

/-- Line ends of every kind as line feeds. -/
def unifyLineEnds : List Char → List Char
  | [] => []
  | '\r' :: '\n' :: rest => '\n' :: unifyLineEnds rest
  | '\r' :: rest => '\n' :: unifyLineEnds rest
  | c :: rest => c :: unifyLineEnds rest

/-- The words of an expression, blanks at both ends left out, its brackets nested within a limit
if there is one. No expression holds the character of code nought, not even in a comment. -/
def tokensWithin? (limit : Option Nat) (text : String) : Option (List Token) :=
  let s := unifyLineEnds (trimBlank text.toList)
  if s.contains (Char.ofNat 0) then none else tokensFrom limit (s.length + 1) 0 false s

end QuantumGates
