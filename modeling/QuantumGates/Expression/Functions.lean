-- The rules for functions. A rounded argument gives a rounded value at once; exact arguments
-- keep the function, except where its value is simple: at nought and the infinities, at
-- multiples of an eighth or twelfth of a turn, and where one function undoes another.
import QuantumGates.Expression.Powers

namespace QuantumGates

namespace Term

/-- The value of a term without variables, if it is real. -/
def closedReal? (t : Term) : Option BigFloat := if t.isClosed then t.realValue? else none

/-- A function of a rounded argument. -/
def roundedCall? (f : Fn) (t : Term) : Option Term :=
  match t.roundedDigits?, t.value? with
  | some d, some z => (BigComplex.valueOf? valueDigits f [z]).map (ofComplex d)
  | _, _ => none

/-- A function that keeps its argument, unless it is rounded. -/
def kept (f : Fn) (t : Term) : Term := (roundedCall? f t).getD (apply f [t])

/-! ## Exponential and logarithm -/

/-- The exact multiple of `i` times half a turn that a term is. -/
def turnCoefficient? : Term → Option Rat
  | product [pi, i] => some 1
  | product [number (.finite (.exact q)), pi, i] => some q
  | _ => none

/-- The argument of the only logarithm among factors, if all others are real numbers, and
these. -/
def loneLog? (ts : List Term) : Option (Term × List Term) :=
  let (logs, others) := ts.partition fun t => match t with
    | apply .log [_] => true
    | _ => false
  match logs with
  | [apply .log [t]] =>
    if others.all fun t => (closedReal? t).isSome then some (t, others) else none
  | _ => none

/-- The exponential of a sum: what has a simple exponential is taken out. -/
def expSum (build : Builder) (ts : List Term) : Term :=
  let parts := ts.map fun t => (t, if t.same one then e else build.call .exp t)
  let (stays, out) := parts.partition fun p => match p.2 with
    | e | power e _ => true
    | _ => false
  let rest := power e (ofSummands (stays.map (·.1)))
  if out.isEmpty then rest
  else
    match stays with
    | [] => build.product (out.map (·.2))
    | [(_, x)] => build.product (x :: out.map (·.2))
    | _ => build.product (rest :: out.map (·.2))

def expOf (build : Builder) (t : Term) : Term :=
  match t with
  | number n =>
    match n with
    | .infinite negative => if negative then zero else infinity
    | .unsigned | .undefined => undefined
    | .range => number .range
    | .finite q =>
      if q.isZero then one
      else if q == .one then e
      else
        match q.digits? with
        | some d => ofQuantity (.ofResult d (BigFloat.exp (d + 32) (q.toBigFloat d)))
        | none => power e t
  | apply .log [s] => s
  | product ts =>
    match turnCoefficient? t with
    | some r => build.power minusOne (ofRat r)
    | none =>
      match loneLog? ts with
      | some (s, others) => build.power s (build.product others)
      | none => power e t
  | sum ts => expSum build ts
  | _ => power e t

/-- The logarithm of a number times `i`. -/
def logOfImaginary (build : Builder) (q : Rat) : Term :=
  let quarter := ofRat (if q < 0 then -(1/2) else 1/2)
  build.sum [build.product [quarter, pi, i], build.call .log (ofRat (if q < 0 then -q else q))]

/-- The natural logarithm. That of a negative number has half a turn as its imaginary part. -/
def logOf (build : Builder) (t : Term) : Term :=
  let otherwise :=
    match closedReal? t with
    | some v =>
      if v.isZero then number .unsigned
      else if v.isNegative then build.sum [build.product [pi, i], build.call .log (build.neg t)]
      else kept .log t
    | none => kept .log t
  match t with
  | number (.infinite _) => infinity
  | number .unsigned => number .unsigned
  | number .undefined => undefined
  | number .range => number .range
  | number (.finite (.exact q)) =>
    if q = 1 then zero
    else if q.num = 1 then build.neg (build.call .log (ofRat q.den))
    else otherwise
  | e => one
  | power e x => if (closedReal? x).isSome then x else otherwise
  | i => logOfImaginary build 1
  | product [number (.finite (.exact q)), i] => logOfImaginary build q
  | _ => otherwise

/-- How often a whole base of two or more divides a positive whole number, and what is left. -/
def wholeLog? (t base : Term) : Option (Nat × Nat) :=
  match t.int?, base.int? with
  | some n, some b =>
    if 2 ≤ b ∧ 1 ≤ n then some (divideOut b.toNat (bitLength n.toNat) n.toNat) else none
  | _, _ => none

/-- The logarithm to a base. -/
def logBase (build : Builder) (t base : Term) : Term :=
  if base.same one then (if t.same one then undefined else number .unsigned)
  else
    let quotient (t : Term) := build.div (build.call .log t) (build.call .log base)
    match wholeLog? t base with
    | some (k, rest) =>
      if k = 0 then quotient t else build.sum [ofRat k, quotient (ofRat rest)]
    | none => quotient t

/-! ## Magnitude and sign -/

def absOf (build : Builder) (t : Term) : Term :=
  match t with
  | number (.finite q) => ofQuantity q.abs
  | number (.infinite _) | number .unsigned => infinity
  | number n => number n
  | apply .abs _ => t
  | product ts =>
    let magnitudes := ts.map fun s => match s with
      | power b x =>
        match x.int? with
        | some n => if n < 0 then (s, build.power (build.call .abs b) x) else (s, build.call .abs s)
        | none => (s, build.call .abs s)
      | _ => (s, build.call .abs s)
    let (unknown, known) := magnitudes.partition fun p => match p.2 with
      | apply .abs [s] => s.same p.1
      | power (apply .abs [_]) _ => true
      | _ => false
    if unknown.isEmpty then build.product (known.map (·.2))
    else
      let rest := apply .abs [ofFactors (sorted (unknown.map (·.1)))]
      if known.isEmpty then rest else build.product (rest :: known.map (·.2))
  | _ =>
    match closedReal? t with
    | some v => if v.isNegative then build.neg t else t
    | none => if t.hasMinus then build.call .abs (build.neg t) else kept .abs t

/-- The sign of a real number as a term. -/
def signTerm (negative : Bool) : Term := if negative then minusOne else one

def signOf (build : Builder) (t : Term) : Term :=
  match t with
  | number (.finite q) => if q.isZero then zero else signTerm q.isNegative
  | number (.infinite negative) => signTerm negative
  | number .unsigned | number .undefined => undefined
  | number .range => number .range
  | apply .sign _ => t
  | _ =>
    match closedReal? t with
    | some v => if v.isZero then zero else signTerm v.isNegative
    | none =>
      match t with
      | product ts =>
        let (known, unknown) := ts.partition fun s => match s with
          | number n => !n.isZero
          | _ => match closedReal? s with
            | some v => !v.isZero
            | none => false
        if known.isEmpty then kept .sign t
        else build.product (known.map (build.call .sign) ++ [build.call .sign (ofFactors unknown)])
      | _ => kept .sign t

/-! ## Circular functions -/

/-- A rounded multiple of half a turn as an exact one, if it is whole or a whole number and a
power of a half. -/
def exactTurns? (q : Quantity) : Option Rat :=
  match q with
  | .exact r => some r
  | .rounded x _ =>
    let b := x.normal
    if 0 ≤ b.exponent then some (b.mantissa * Nat.pow 2 b.exponent.toNat : Int)
    else
      let r := mkRat b.mantissa (Nat.pow 2 (-b.exponent).toNat)
      let f := (if r < 0 then -r else r) - (if r < 0 then -r else r).floor
      if f.num = 1 then some r else none

/-- The exact multiple of half a turn that a term is. -/
def piCoefficient? : Term → Option Rat
  | pi => some 1
  | product [number (.finite q), pi] => exactTurns? q
  | _ => none

/-- The whole quarter turns in a sum, as multiples of half a turn, and the rest. -/
def peelTurns? (build : Builder) (ts : List Term) : Option (Rat × Term) :=
  let multiple? : Term → Option Rat
    | pi => some 1
    | product [number (.finite (.exact q)), pi] => some q
    | _ => none
  let turns : Rat := (ts.filterMap multiple?).foldl (· + ·) 0
  let m : Rat := ((2 * turns).floor : Rat) / 2
  if m = 0 then none
  else
    let rest := ts.filter fun t => (multiple? t).isNone
    some (m, build.sum (build.product [ofRat (turns - m), pi] :: rest))

/-- `sqrt (1 - t ^ 2)`. -/
def legOf (build : Builder) (t : Term) : Term :=
  build.sqrt (build.sum [one, build.neg (build.power t (ofRat 2))])

/-- `sqrt (s ^ 2 + t ^ 2)`. -/
def hypotenuse (build : Builder) (s t : Term) : Term :=
  build.sqrt (build.sum [build.power s (ofRat 2), build.power t (ofRat 2)])

/-- The sine of `r` times half a turn, for `r` between nought and a half. -/
def sinFirst (build : Builder) (r : Rat) : Term :=
  if r = 0 then zero
  else if r = 1/2 then one
  else if r = 1/6 then half
  else if r = 1/4 then build.product [half, build.sqrt (ofRat 2)]
  else if r = 1/3 then build.product [half, build.sqrt (ofRat 3)]
  else apply .sin [multiple build pi (.ofRat r)]

/-- The sine of `r` times half a turn. -/
def sinTurns (build : Builder) (r : Rat) : Term :=
  let s : Rat := r - 2 * ((r / 2).floor : Rat)
  let u : Rat := if 1 < s then s - 1 else s
  let v := sinFirst build (if 1/2 < u then 1 - u else u)
  if 1 < s then build.neg v else v

/-- What sine and cosine are at numbers that are not finite, and at bounds. -/
def circularLimit? : Extended → Option Term
  | .infinite _ | .range => some (number .range)
  | .unsigned | .undefined => some undefined
  | .finite _ => none

def sinOf (build : Builder) (t : Term) : Term :=
  match t with
  | number n =>
    match circularLimit? n with
    | some s => s
    | none =>
      if n.isZero then zero
      else if n.isNegative then build.neg (build.call .sin (build.neg t))
      else kept .sin t
  | apply .asin [s] => s
  | apply .acos [s] => legOf build s
  | apply .atan [s] => build.div s (hypotenuse build one s)
  | apply .atan2 [y, x] => build.div y (hypotenuse build x y)
  | _ =>
    if t.hasMinus then build.neg (build.call .sin (build.neg t))
    else
      match piCoefficient? t with
      | some r => sinTurns build r
      | none =>
        match t with
        | sum ts =>
          match peelTurns? build ts with
          | some (m, s) =>
            build.sum [build.product [sinTurns build m, build.call .cos s],
              build.product [sinTurns build (m + 1/2), build.call .sin s]]
          | none => kept .sin t
        | _ => kept .sin t

def cosOf (build : Builder) (t : Term) : Term :=
  match t with
  | number n =>
    match circularLimit? n with
    | some s => s
    | none =>
      if n.isZero then one
      else if n.isNegative then build.call .cos (build.neg t)
      else kept .cos t
  | apply .acos [s] => s
  | apply .asin [s] => legOf build s
  | apply .atan [s] => build.power (hypotenuse build one s) minusOne
  | apply .atan2 [y, x] => build.div x (hypotenuse build x y)
  | _ =>
    if t.hasMinus then build.call .cos (build.neg t)
    else
      match piCoefficient? t with
      | some r => sinTurns build (r + 1/2)
      | none =>
        match t with
        | sum ts =>
          match peelTurns? build ts with
          | some (m, s) =>
            build.sum [build.product [sinTurns build (m + 1/2), build.call .cos s],
              build.neg (build.product [sinTurns build m, build.call .sin s])]
          | none => kept .cos t
        | _ => kept .cos t

def tanOf (build : Builder) (t : Term) : Term :=
  match t with
  | number n =>
    match circularLimit? n with
    | some s => s
    | none =>
      if n.isZero then zero
      else if n.isNegative then build.neg (build.call .tan (build.neg t))
      else kept .tan t
  | apply .atan [s] => s
  | apply .asin [s] => build.div s (legOf build s)
  | apply .acos [s] => build.div (legOf build s) s
  | apply .atan2 [y, x] => build.div y x
  | _ =>
    if t.hasMinus then build.neg (build.call .tan (build.neg t))
    else
      match piCoefficient? t with
      | some r => build.div (sinTurns build r) (sinTurns build (r + 1/2))
      | none =>
        match t with
        | sum ts =>
          match peelTurns? build ts with
          | some (m, s) =>
            let u := build.call .tan s
            if m.den = 1 then u else build.neg (build.power u minusOne)
          | none => kept .tan t
        | _ => kept .tan t

/-! ## Inverse circular functions -/

def quarterTurns (build : Builder) (q : Rat) : Term := multiple build pi (.ofRat (q / 2))

def asinOf (build : Builder) (t : Term) : Term :=
  match t with
  | number (.infinite negative) => product [number (.infinite !negative), i]
  | number (.finite q) =>
    if q.isZero then zero
    else if q == .one then quarterTurns build 1
    else if q.isNegative then build.neg (build.call .asin (build.neg t))
    else kept .asin t
  | number n => number n
  | _ => if t.hasMinus then build.neg (build.call .asin (build.neg t)) else kept .asin t

def acosOf (build : Builder) (t : Term) : Term :=
  match t with
  | number (.infinite negative) => product [number (.infinite negative), i]
  | number (.finite q) =>
    if q.isZero then quarterTurns build 1
    else if q == .one then zero
    else if q == .ofInt (-1) then pi
    else kept .acos t
  | number n => number n
  | _ => kept .acos t

def atanOf (build : Builder) (t : Term) : Term :=
  match t with
  | number (.infinite negative) => quarterTurns build (if negative then -1 else 1)
  | number (.finite q) =>
    if q.isZero then zero
    else if q == .one then quarterTurns build (1/2)
    else if q.isNegative then build.neg (build.call .atan (build.neg t))
    else kept .atan t
  | number .undefined => undefined
  | number _ => number .range
  | _ => if t.hasMinus then build.neg (build.call .atan (build.neg t)) else kept .atan t

/-- The angle of a point with real coordinates; `y` may be infinite. -/
def realAngle (build : Builder) (y x : Term) (yNegative yZero : Bool) (v : BigFloat) : Term :=
  let arc := build.call .atan (build.div y x)
  if v.isZero then
    if yZero then undefined else quarterTurns build (if yNegative then -1 else 1)
  else if !v.isNegative then arc
  else build.sum [arc, if yNegative then build.neg pi else pi]

/-- The angle of the point with abscissa `x` and ordinate `y`. -/
def atan2Of (build : Builder) (y x : Term) : Term :=
  let raw := apply .atan2 [y, x]
  match x with
  | number .undefined => undefined
  | number (.infinite false) => if y.same undefined then undefined else zero
  | number (.infinite true) =>
    match y with
    | number (.infinite negative) => if negative then build.neg pi else pi
    | number .undefined => undefined
    | _ =>
      match closedReal? y with
      | some w => if w.isNegative then build.neg pi else pi
      | none => raw
  | _ =>
    match y, closedReal? y, closedReal? x with
    | number .undefined, _, _ => undefined
    | number (.infinite negative), _, some v =>
      if v.isZero || v.isNegative then undefined
      else quarterTurns build (if negative then -1 else 1)
    | _, some w, some v => realAngle build y x w.isNegative w.isZero v
    | _, _, _ => raw

/-! ## Hyperbolic functions -/

/-- The hyperbolic sine and tangent, with their limit at infinity. -/
def oddHyperbolic (build : Builder) (f : Fn) (limit : Term) (t : Term) : Term :=
  match t with
  | number (.infinite negative) => if negative then build.neg limit else limit
  | number (.finite q) =>
    if q.isZero then zero
    else if q.isNegative then build.neg (build.call f (build.neg t))
    else kept f t
  | number .range => number .range
  | number _ => undefined
  | _ => if t.hasMinus then build.neg (build.call f (build.neg t)) else kept f t

def coshOf (build : Builder) (t : Term) : Term :=
  match t with
  | number (.infinite _) => infinity
  | number (.finite q) =>
    if q.isZero then one
    else if q.isNegative then build.call .cosh (build.neg t)
    else kept .cosh t
  | number .range => number .range
  | number _ => undefined
  | _ => if t.hasMinus then build.call .cosh (build.neg t) else kept .cosh t

/-! ## All rules -/

/-- The rule for functions. -/
def callOf (build : Builder) (f : Fn) (ts : List Term) : Term :=
  match f, ts with
  | .sin, [t] => sinOf build t
  | .cos, [t] => cosOf build t
  | .tan, [t] => tanOf build t
  | .asin, [t] => asinOf build t
  | .acos, [t] => acosOf build t
  | .atan, [t] => atanOf build t
  | .atan2, [y, x] => atan2Of build y x
  | .sinh, [t] => oddHyperbolic build .sinh infinity t
  | .cosh, [t] => coshOf build t
  | .tanh, [t] => oddHyperbolic build .tanh one t
  | .exp, [t] => expOf build t
  | .log, [t] => logOf build t
  | .log, [t, base] => logBase build t base
  | .sqrt, [t] | .sqrt, [t, _] => build.sqrt t
  | .abs, [t] => absOf build t
  | .sign, [t] => signOf build t
  | _, _ => apply f ts

/-- The rule for each kind of term. -/
def ruleOf (build : Builder) : Builder
  | .sum, ts => sumOf build ts
  | .product, ts => productOf build ts
  | .power, [b, x] => powerOf build b x
  | .power, _ => undefined
  | .apply f, ts => callOf build f ts

/-- The rules, nested up to some depth; below it terms are kept as they are. -/
def buildWithin : Nat → Builder
  | 0 => Head.raw
  | n + 1 => ruleOf (buildWithin n)

/-- Far deeper than rules are nested on terms in normal form. -/
def buildDepth : Nat := 100

/-- Makes a term in normal form from terms in normal form. -/
def build : Builder := buildWithin buildDepth

mutual

/-- A term with its variables replaced by numbers. -/
def substitute (value : Nat → Extended) : Term → Term
  | var v => number (value v)
  | power b x => build .power [substitute value b, substitute value x]
  | product ts => build .product (substituteList value ts)
  | sum ts => build .sum (substituteList value ts)
  | apply f ts => build (.apply f) (substituteList value ts)
  | t => t

/-- The same in several terms. -/
def substituteList (value : Nat → Extended) : List Term → List Term
  | [] => []
  | t :: ts => substitute value t :: substituteList value ts

end

end Term

end QuantumGates
