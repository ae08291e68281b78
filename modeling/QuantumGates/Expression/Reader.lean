-- The grammar of expressions, from the words of a text to its tree. The grammar is wider than
-- arithmetic: conditions, comparisons, brackets of all kinds, indices, slices and anonymous
-- functions are read too, so that a text which follows the grammar but is no arithmetic is
-- told from one that does not follow it.
--
-- Each rule is written over a reader for all goals, and `read` closes the circle: with more
-- fuel the same rules are used deeper. Every goal takes a word or turns to a later goal, so
-- the fuel of `readAll?` is enough for any text.
import QuantumGates.Expression.Node
import QuantumGates.Expression.Token

namespace QuantumGates

/-! ## Goals -/

/-- What is read next. -/
inductive Goal
  /-- An expression, or a name that is given a value in passing. -/
  | named
  /-- A named expression, or a starred one. -/
  | item
  | expression
  /-- Operands joined by operators of one strength or a stronger one. -/
  | chain (strength : Nat)
  /-- The rest of such a chain. -/
  | chainFrom (strength : Nat) (left : Node)
  /-- An operand with its signs. -/
  | factor
  | power
  | primary
  /-- Calls, indices and members after a primary. -/
  | primaryFrom (left : Node)
  | atom
  /-- Something that a loop assigns to. -/
  | target
  | slice
  /-- An anonymous function after its first word. -/
  | lambda
  /-- The loops and conditions of a comprehension. -/
  | loops
  /-- A key and its value, or a starred mapping. -/
  | entry

/-- Reads a tree from the beginning of a list of words. -/
abbrev Reader := List Token → Option (Node × List Token)

/-- What follows a sign. -/
def afterSign? (s : Sign) : List Token → Option (List Token)
  | .sign t :: rest => if t = s then some rest else none
  | _ => none

/-- What follows a word. -/
def afterWord? (w : String) : List Token → Option (List Token)
  | .name t :: rest => if t = w then some rest else none
  | _ => none

/-- The words that begin a loop of a comprehension. -/
def afterFor? (ts : List Token) : Option (List Token) :=
  afterWord? "for" ((afterWord? "async" ts).getD ts)

/-- Whether a list of words begins with one of some signs or is at its end. -/
def atEnd (closers : List Sign) : List Token → Bool
  | [] => closers.isEmpty
  | .sign s :: _ => closers.contains s
  | _ => false

/-! ## Operators -/

/-- The class names of the operators between operands. -/
def operatorNode : Sign → Option Node
  | .plus => some (.leaf (.operator .add))
  | .minus => some (.leaf (.operator .sub))
  | .star => some (.leaf (.operator .mul))
  | .slash => some (.leaf (.operator .div))
  | .power => some (.leaf (.operator .pow))
  | .caret => some (.leaf (.operator .xor))
  | .doubleSlash => some (.leaf (.other "FloorDiv"))
  | .percent => some (.leaf (.other "Mod"))
  | .at => some (.leaf (.other "MatMult"))
  | .shiftLeft => some (.leaf (.other "LShift"))
  | .shiftRight => some (.leaf (.other "RShift"))
  | .ampersand => some (.leaf (.other "BitAnd"))
  | .bar => some (.leaf (.other "BitOr"))
  | _ => none

/-- The signs that join operands with a given strength. -/
def joiningSigns : Nat → List Sign
  | 4 => [.bar]
  | 5 => [.caret]
  | 6 => [.ampersand]
  | 7 => [.shiftLeft, .shiftRight]
  | 8 => [.plus, .minus]
  | 9 => [.star, .slash, .doubleSlash, .percent, .at]
  | _ => []

def comparingSigns : List Sign := [.equal, .unequal, .less, .lessEqual, .greater, .greaterEqual]

/-- What follows a comparing operator, which may be of one or two words. -/
def afterComparison? : List Token → Option (List Token)
  | .sign s :: rest => if comparingSigns.contains s then some rest else none
  | .name "in" :: rest => some rest
  | .name "not" :: .name "in" :: rest => some rest
  | .name "is" :: .name "not" :: rest => some rest
  | .name "is" :: rest => some rest
  | _ => none

/-- The operator of some strength at the head, as a way of joining two operands. -/
def joinAt? (strength : Nat) (ts : List Token) : Option ((Node → Node → Node) × List Token) :=
  if strength = 0 then
    (afterWord? "or" ts).map fun rest => (fun l r => .other "BoolOp" [l, r], rest)
  else if strength = 1 then
    (afterWord? "and" ts).map fun rest => (fun l r => .other "BoolOp" [l, r], rest)
  else if strength = 3 then
    (afterComparison? ts).map fun rest => (fun l r => .other "Compare" [l, r], rest)
  else
    match ts with
    | .sign s :: rest =>
      if (joiningSigns strength).contains s then
        (operatorNode s).map fun o => (fun l r => .mk .binary [l, o, r], rest)
      else none
    | _ => none

/-- The sign before an operand. -/
def unaryNode : Sign → Option Node
  | .plus => some (.leaf (.operator .positive))
  | .minus => some (.leaf (.operator .negative))
  | .tilde => some (.leaf (.other "Invert"))
  | _ => none

/-! ## Lists -/

/-- Items with commas between them, up to a closing sign or the end. The flag tells whether
there is a comma; one may stand after the last item. -/
def commaList (item : Reader) (closers : List Sign) :
    Nat → List Token → Option (List Node × Bool × List Token)
  | 0, _ => none
  | n + 1, ts => do
    let (x, rest) ← item ts
    match afterSign? .comma rest with
    | none => some ([x], false, rest)
    | some rest =>
      if atEnd closers rest then some ([x], true, rest)
      else
        let (xs, _, rest) ← commaList item closers n rest
        some (x :: xs, true, rest)

/-- Items one after another without anything between them. -/
def repeated (item : Reader) : Nat → List Token → List Node × List Token
  | 0, ts => ([], ts)
  | n + 1, ts =>
    match item ts with
    | none => ([], ts)
    | some (x, rest) =>
      let (xs, rest) := repeated item n rest
      (x :: xs, rest)

/-- Whether something can be assigned to. -/
def isTarget : Nat → Node → Bool
  | 0, _ => false
  | n + 1, .mk kind parts =>
    match kind with
    | .name _ => true
    | .other "Attribute" | .other "Subscript" => true
    | .other "Tuple" | .other "List" => parts.all (isTarget n)
    | .other "Starred" => parts.all (isTarget n)
    | _ => false

/-- Whether a node is a starred item. -/
def isStarred (n : Node) : Bool := n.kind == .other "Starred"

/-- The tree for quoted texts one after another. Bytes stand with bytes only. -/
def quotedNode (kinds : List QuoteKind) : Option Node :=
  if kinds.contains .bytes && kinds.any (· != .bytes) then none
  else if kinds.contains .template then some (.other "JoinedStr" [])
  else some (.other "Constant" [])

/-- Quoted texts at the head. -/
def takeQuotes : List Token → List QuoteKind × List Token
  | .quoted k :: rest =>
    let (ks, tail) := takeQuotes rest
    (k :: ks, tail)
  | ts => ([], ts)

/-! ## Rules -/

section

variable (read : Goal → Reader)

/-- A starred item, or what another goal reads. -/
def readStarred (operand : Goal) (otherwise : Goal) : Reader := fun ts =>
  match afterSign? .star ts with
  | some rest => (read operand rest).map fun (x, rest) => (.other "Starred" [x], rest)
  | none => read otherwise ts

def readNamed : Reader := fun ts =>
  match ts with
  | .name id :: .sign .define :: rest =>
    if reservedWords.contains id then none
    else
      (read .expression rest).map fun (x, rest) =>
        (.other "NamedExpr" [.leaf (.name id), x], rest)
  | _ => read .expression ts

def readExpression : Reader := fun ts =>
  match afterWord? "lambda" ts with
  | some rest => read .lambda rest
  | none => do
    let (body, rest) ← read (.chain 0) ts
    match afterWord? "if" rest with
    | none => some (body, rest)
    | some rest =>
      let (test, rest) ← read (.chain 0) rest
      let rest ← afterWord? "else" rest
      let (otherwise, rest) ← read .expression rest
      some (.other "IfExp" [test, body, otherwise], rest)

def readChain (strength : Nat) : Reader := fun ts =>
  if strength = 2 then
    match afterWord? "not" ts with
    | some rest =>
      (read (.chain 2) rest).map fun (x, rest) => (.mk .unary [.leaf (.other "Not"), x], rest)
    | none => read (.chain 3) ts
  else if strength = 10 then read .factor ts
  else do
    let (left, rest) ← read (.chain (strength + 1)) ts
    read (.chainFrom strength left) rest

def readChainFrom (strength : Nat) (left : Node) : Reader := fun ts =>
  match joinAt? strength ts with
  | none => some (left, ts)
  | some (join, rest) => do
    let (right, rest) ← read (.chain (strength + 1)) rest
    read (.chainFrom strength (join left right)) rest

def readFactor : Reader := fun ts =>
  match ts with
  | .sign s :: rest =>
    match unaryNode s with
    | some o => (read .factor rest).map fun (x, rest) => (.mk .unary [o, x], rest)
    | none => read .power ts
  | _ => read .power ts

def readPower : Reader := fun ts => do
  let (base, rest) ←
    match afterWord? "await" ts with
    | some rest => (read .primary rest).map fun (x, rest) => (Node.other "Await" [x], rest)
    | none => read .primary ts
  match afterSign? .power rest with
  | none => some (base, rest)
  | some rest =>
    let (exponent, rest) ← read .factor rest
    some (.mk .binary [base, .leaf (.operator .pow), exponent], rest)

/-- The arguments of a call up to its closing bracket. The flags tell whether an argument, an
argument by name and a starred mapping stood before. A comprehension may be the only one. -/
def readArguments (begun named mapped : Bool) :
    Nat → List Token → Option (List Node × Bool × List Token)
  | 0, _ => none
  | n + 1, ts =>
    match afterSign? .closeRound ts with
    | some rest => some ([], named || mapped, rest)
    | none =>
      /- what follows an argument: the end, or a comma and further arguments -/
      let next (named mapped : Bool) (x : Option Node) (rest : List Token) :=
        match afterSign? .closeRound rest with
        | some rest => some (x.toList, named || mapped, rest)
        | none => do
          let rest ← afterSign? .comma rest
          let (xs, byName, rest) ← readArguments true named mapped n rest
          some (x.toList ++ xs, byName, rest)
      match ts with
      | .sign .star :: rest =>
        if mapped then none
        else do
          let (x, rest) ← read .expression rest
          next named mapped (some (.other "Starred" [x])) rest
      | .sign .power :: rest => do
        let (_, rest) ← read .expression rest
        next named true none rest
      | .name id :: .sign .assign :: rest =>
        if reservedWords.contains id then none
        else do
          let (_, rest) ← read .expression rest
          next true mapped none rest
      | _ =>
        if named || mapped then none
        else do
          let (x, rest) ← read .named ts
          if begun || (afterFor? rest).isNone then next named mapped (some x) rest
          else
            let (loops, rest) ← read .loops rest
            let rest ← afterSign? .closeRound rest
            some ([.other "GeneratorExp" [x, loops]], false, rest)

/-- A call after its opening bracket. -/
def readCall (callee : Node) : Reader := fun ts =>
  (readArguments read false false false (ts.length + 1) ts).map fun (xs, named, rest) =>
    (.mk (.call named) (callee :: xs), rest)

def readPrimaryFrom (left : Node) : Reader := fun ts =>
  match ts with
  | .sign .dot :: .name id :: rest =>
    if reservedWords.contains id then none
    else read (.primaryFrom (.other "Attribute" [left])) rest
  | .sign .openRound :: rest => do
    let (call, rest) ← readCall read left rest
    read (.primaryFrom call) rest
  | .sign .openSquare :: rest => do
    let (indices, _, rest) ←
      commaList (readStarred read .expression .slice) [.closeSquare] (rest.length + 1) rest
    let rest ← afterSign? .closeSquare rest
    read (.primaryFrom (.other "Subscript" (left :: indices))) rest
  | _ => some (left, ts)

/-- A slice, or an expression as an index. -/
def readSlice : Reader := fun ts => do
  let ends := [Sign.colon, .comma, .closeSquare]
  let bound (ts : List Token) : Option (List Token) :=
    if atEnd ends ts then some ts else (read .expression ts).map (·.2)
  let first : Option (Node × List Token) :=
    if atEnd ends ts then some (.other "Slice" [], ts) else read .named ts
  let (x, rest) ← first
  match afterSign? .colon rest with
  | none => if atEnd ends ts then none else some (x, rest)
  | some rest =>
    if x.kind == .other "NamedExpr" then none
    else
      let rest ← bound rest
      match afterSign? .colon rest with
      | none => some (.other "Slice" [], rest)
      | some rest => (bound rest).map fun rest => (.other "Slice" [], rest)

/-- The rest of a bracket after its first item: the end, further items after a comma, or the
loops of a comprehension. -/
def readBracket (element : Goal) (close : Sign) (label comprehension : String) (first : Node) :
    Reader := fun ts =>
  match afterSign? close ts with
  | some rest => some (.other label [first], rest)
  | none =>
    match afterSign? .comma ts with
    | some rest =>
      match afterSign? close rest with
      | some rest => some (.other label [first], rest)
      | none => do
        let (xs, _, rest) ← commaList (read element) [close] (rest.length + 1) rest
        let rest ← afterSign? close rest
        some (.other label (first :: xs), rest)
    | none =>
      if isStarred first then none
      else do
        let (loops, rest) ← read .loops ts
        let rest ← afterSign? close rest
        some (.other comprehension [first, loops], rest)

/-- What stands in round brackets. A single item without a comma is meant by itself. -/
def readRound : Reader := fun ts =>
  match ts with
  | .sign .closeRound :: rest => some (.other "Tuple" [], rest)
  | .name "yield" :: .name "from" :: rest => do
    let (x, rest) ← read .expression rest
    let rest ← afterSign? .closeRound rest
    some (.other "YieldFrom" [x], rest)
  | .name "yield" :: .sign .closeRound :: rest => some (.other "Yield" [], rest)
  | .name "yield" :: rest => do
    let (xs, _, rest) ←
      commaList (readStarred read (.chain 4) .expression) [.closeRound] (rest.length + 1) rest
    let rest ← afterSign? .closeRound rest
    some (.other "Yield" xs, rest)
  | _ => do
    let (x, rest) ← read .item ts
    match afterSign? .closeRound rest with
    | some rest => if isStarred x then none else some (x, rest)
    | none => readBracket read .item .closeRound "Tuple" "GeneratorExp" x rest

/-- What stands in square brackets: a list, or a comprehension. -/
def readSquare : Reader := fun ts =>
  match afterSign? .closeSquare ts with
  | some rest => some (.other "List" [], rest)
  | none => do
    let (x, rest) ← read .item ts
    readBracket read .item .closeSquare "List" "ListComp" x rest

def readEntry : Reader := fun ts =>
  match afterSign? .power ts with
  | some rest => (read (.chain 4) rest).map fun (x, rest) => (.other "Starred" [x], rest)
  | none => do
    let (key, rest) ← read .expression ts
    let rest ← afterSign? .colon rest
    let (value, rest) ← read .expression rest
    some (.other "entry" [key, value], rest)

/-- What stands in curly brackets: a mapping, a set, or a comprehension of one. -/
def readCurly : Reader := fun ts =>
  match ts with
  | .sign .closeCurly :: rest => some (.other "Dict" [], rest)
  | .sign .power :: _ => do
    let (x, rest) ← read .entry ts
    readBracket read .entry .closeCurly "Dict" "DictComp" x rest
  | _ => do
    let (x, rest) ← read .item ts
    match afterSign? .colon rest with
    | none => readBracket read .item .closeCurly "Set" "SetComp" x rest
    | some rest =>
      if isStarred x || x.kind == .other "NamedExpr" then none
      else
        let (value, rest) ← read .expression rest
        readBracket read .entry .closeCurly "Dict" "DictComp" (.other "entry" [x, value]) rest

def readAtom : Reader := fun ts =>
  match ts with
  | .name "True" :: rest | .name "False" :: rest | .name "None" :: rest =>
    some (.other "Constant" [], rest)
  | .name id :: rest => if reservedWords.contains id then none else some (.leaf (.name id), rest)
  | .whole n :: rest => some (.leaf (.whole n), rest)
  | .decimal d :: rest => some (.leaf (.decimal d), rest)
  | .imaginary :: rest | .sign .ellipsis :: rest => some (.other "Constant" [], rest)
  | .quoted _ :: _ =>
    let (kinds, rest) := takeQuotes ts
    (quotedNode kinds).map fun x => (x, rest)
  | .sign .openRound :: rest => readRound read rest
  | .sign .openSquare :: rest => readSquare read rest
  | .sign .openCurly :: rest => readCurly read rest
  | _ => none

/-- One loop of a comprehension with its conditions. -/
def readLoop : Reader := fun ts => do
  let rest ← afterFor? ts
  let (targets, _, rest) ← commaList (readStarred read .target .target) [] (rest.length + 1) rest
  let rest ← afterWord? "in" rest
  let (source, rest) ← read (.chain 0) rest
  let condition : Reader := fun ts => (afterWord? "if" ts).bind (read (.chain 0))
  let (conditions, rest) := repeated condition (rest.length + 1) rest
  some (.other "comprehension" (targets ++ source :: conditions), rest)

def readLoops : Reader := fun ts => do
  let (first, rest) ← readLoop read ts
  let (more, rest) := repeated (readLoop read) (rest.length + 1) rest
  -- a further loop or condition that could not be read is an error
  if (afterFor? rest).isSome || (afterWord? "if" rest).isSome then none
  else some (.other "loops" (first :: more), rest)

def readTarget : Reader := fun ts => do
  let (x, rest) ← read .primary ts
  if isTarget (ts.length + 1) x then some (x, rest) else none

/-- The parameters of an anonymous function up to the colon. The flags tell whether a
parameter with a default value and a star stood before. -/
def readParameters (defaulted starred : Bool) : Nat → List Token → Option (List Token)
  | 0, _ => none
  | n + 1, ts =>
    let next (defaulted starred : Bool) (rest : List Token) : Option (List Token) :=
      match afterSign? .colon rest with
      | some rest => some rest
      | none => (afterSign? .comma rest).bind (readParameters defaulted starred n)
    match ts with
    | .sign .colon :: rest => some rest
    | .sign .power :: .name id :: rest =>
      if reservedWords.contains id then none
      else afterSign? .colon ((afterSign? .comma rest).getD rest)
    | .sign .star :: .name id :: rest =>
      if reservedWords.contains id || starred then none else next defaulted true rest
    | .sign .star :: .sign .comma :: .name id :: rest =>
      if reservedWords.contains id || starred then none
      else readParameters defaulted true n (.name id :: rest)
    | .name id :: .sign .assign :: rest =>
      if reservedWords.contains id then none
      else (read .expression rest).bind fun (_, rest) => next true starred rest
    | .name id :: rest =>
      if reservedWords.contains id || (defaulted && !starred) then none
      else
        match rest with
        | .sign .comma :: .sign .slash :: rest =>
          if starred then none else next defaulted starred rest
        | _ => next defaulted starred rest
    | _ => none

def readLambda : Reader := fun ts => do
  let rest ← readParameters read false false (ts.length + 1) ts
  let (body, rest) ← read .expression rest
  some (.other "Lambda" [body], rest)

/-- The rule of each goal. -/
def rule : Goal → Reader
  | .named => readNamed read
  | .item => readStarred read (.chain 4) .named
  | .expression => readExpression read
  | .chain k => readChain read k
  | .chainFrom k left => readChainFrom read k left
  | .factor => readFactor read
  | .power => readPower read
  | .primary => fun ts => do
    let (x, rest) ← read .atom ts
    read (.primaryFrom x) rest
  | .primaryFrom left => readPrimaryFrom read left
  | .atom => readAtom read
  | .target => readTarget read
  | .slice => readSlice read
  | .lambda => readLambda read
  | .loops => readLoops read
  | .entry => readEntry read

end

/-! ## Whole texts -/

/-- Reads a goal with a bound on how deep the rules are nested. -/
def read : Nat → Goal → Reader
  | 0, _ => fun _ => none
  | n + 1, g => rule (read n) g

/-- The tree of a list of words, all of which are used. -/
def readAll? (ts : List Token) : Option Node := do
  let depth := 24 * (ts.length + 2)
  let (xs, comma, rest) ← commaList (read depth .expression) [] (ts.length + 1) ts
  if !rest.isEmpty then none
  else
    match xs, comma with
    | [x], false => some x
    | _, _ => some (.other "Tuple" xs)

/-- A caret stands for a power. -/
def Token.caretAsPower : Token → Token
  | .sign .caret => .sign .power
  | t => t

/-- The tree that is checked. -/
def Node.checked? (ts : List Token) : Option Node := readAll? ts

/-- The tree that is evaluated, a caret being a power. -/
def Node.evaluated? (ts : List Token) : Option Node := readAll? (ts.map Token.caretAsPower)

end QuantumGates
