-- How terms are put together. Each kind of term has rules that give its normal form from normal
-- parts; the rules of one kind call on those of the others, so each is written over a `Builder`
-- for all kinds. This module holds the rules for sums and products: equal terms are collected,
-- numbers are added and multiplied, and a number is multiplied into a sum.
import QuantumGates.Expression.Value

namespace QuantumGates

/-- The kinds of terms that are made of others. -/
inductive Head
  | sum
  | product
  /-- A base and an exponent. -/
  | power
  | apply (f : Fn)

/-- Makes a term of a kind from its parts. -/
abbrev Builder := Head → List Term → Term

namespace Builder

variable (build : Builder)

def sum (ts : List Term) : Term := build .sum ts
def product (ts : List Term) : Term := build .product ts
def power (b x : Term) : Term := build .power [b, x]
def call (f : Fn) (t : Term) : Term := build (.apply f) [t]
def neg (t : Term) : Term := build.product [.minusOne, t]
def div (s t : Term) : Term := build.product [s, build.power t .minusOne]
def sqrt (t : Term) : Term := build.power t .half

end Builder

/-- A term of a kind just as its parts are. -/
def Head.raw : Head → List Term → Term
  | .sum, ts => .ofSummands (ts.flatMap Term.summands)
  | .product, ts => .ofFactors (ts.flatMap Term.factors)
  | .power, [b, x] => .power b x
  | .power, _ => .undefined
  | .apply f, ts => .apply f ts

namespace Term

/-! ## Sums -/

/-- Adds a multiple of a term to a list of multiples. -/
def addMultiple (t : Term) (c : Extended) : List (Term × Extended) → List (Term × Extended)
  | [] => [(t, c)]
  | (s, d) :: rest => if s.same t then (s, d.add c) :: rest else (s, d) :: addMultiple t c rest

/-- A multiple of a term. -/
def multiple (build : Builder) (t : Term) (c : Extended) : Term :=
  if c.isOne then t
  else
    match t with
    | product ts => product (number c :: ts)
    | sum _ => product [number c, t]
    | _ => build.product [number c, t]

/-- Whether a term does not change an infinity that it is added to. -/
def isLostIn (constant : Extended) (t : Term) : Bool :=
  match constant with
  | .infinite _ => t.isClosed && t.realValue?.isSome
  | .unsigned => t.isClosed && t.value?.isSome
  | _ => false

/-- The rule for sums. -/
def sumOf (build : Builder) (ts : List Term) : Term :=
  match ts with
  | [t] => t
  | _ =>
    let all := ts.flatMap summands
    let constant := (all.filterMap number?).foldl Extended.add .zero
    let multiples := all.foldl (fun acc t =>
      if t.number?.isSome then acc else addMultiple t.coefficient.2 t.coefficient.1 acc) []
    if constant == .undefined || multiples.any (fun m => m.2 == .undefined) then undefined
    else
      let kept := (multiples.filter fun m => !m.2.isZero).map fun m => multiple build m.1 m.2
      let kept := sorted (kept.filter fun t => !isLostIn constant t)
      if constant == .zero then ofSummands kept else ofSummands (number constant :: kept)

/-! ## Products -/

/-- What a product is made of: a number, a power of minus one, and powers of other bases, the
exponents of a base being kept as multiples of their terms. -/
structure Factors where
  number : Extended
  /-- The exponent of minus one. -/
  turn : Rat
  powers : List (Term × List (Term × Extended))

namespace Factors

def empty : Factors := ⟨.one, 0, []⟩

/-- Adds an exponent to the exponents of a base. -/
def addExponent (b x : Term) : List (Term × List (Term × Extended)) →
    List (Term × List (Term × Extended))
  | [] => [(b, [(x.coefficient.2, x.coefficient.1)])]
  | (c, xs) :: rest =>
    if c.same b then (c, addMultiple x.coefficient.2 x.coefficient.1 xs) :: rest
    else (c, xs) :: addExponent b x rest

/-- One more factor, which is no product. -/
def insert (fs : Factors) (t : Term) : Factors :=
  match t with
  | .number n => { fs with number := fs.number.mul n }
  | .i => { fs with turn := fs.turn + 1/2 }
  | .power (.number (.finite (.exact (-1)))) (.number (.finite (.exact r))) =>
    { fs with turn := fs.turn + r }
  | _ => { fs with powers := addExponent t.basePower.1 t.basePower.2 fs.powers }

/-- The sign and the factor that a power of minus one comes to. -/
def turnParts (r : Rat) : Bool × List Term :=
  let n := r.floor
  let p := r - n
  (n % 2 == 1,
    if p = 0 then [] else if p = 1/2 then [.i] else [.power .minusOne (.ofRat p)])

end Factors

/-- Whether a sum or product holds an infinity. -/
def holdsInfinity : Term → Bool
  | sum ts | product ts => ts.any fun t => (t.number?.map Extended.isInfinite).getD false
  | _ => false

/-- Whether a factor is to be taken apart again. -/
def isCompound : Term → Bool
  | number _ | i | product _ => true
  | power (number (.finite (.exact (-1)))) (number _) => true
  | _ => false

/-- The powers of one base. -/
def powersOf (build : Builder) (b : Term) (exponents : List (Term × Extended)) : List Term :=
  exponents.filterMap fun (t, c) =>
    if c.isZero then none
    else
      let x := match t.number? with
        | some n => number (c.mul n)
        | none => multiple build t c
      some (if x.same one then b else build.power b x)

/-- The factors that remain beside an infinite number, and whether they turn its sign. -/
def besideInfinity (signed : Bool) (ts : List Term) : List Term × Bool :=
  ts.foldr (fun t (kept, turned) =>
    match (if t.isClosed then t.realValue? else none) with
    | some x => if x.isZero then (t :: kept, turned) else (kept, turned != (signed && x.isNegative))
    | none => (t :: kept, turned)) ([], false)

/-- A number times factors that are in their normal form. -/
def scaled (build : Builder) (n : Extended) (ts : List Term) : Term :=
  if n.isZero then (if ts.any holdsInfinity then undefined else zero)
  else if n.isOne then ofFactors (sorted ts)
  else
    match n, ts with
    | .finite _, [sum ss] => build.sum (ss.map fun s => build.product [number n, s])
    | _, _ => ofFactors (number n :: sorted ts)

/-- The rule for products. -/
def productOf (build : Builder) (ts : List Term) : Term :=
  match ts with
  | [t] => t
  | _ =>
    let fs := (ts.flatMap factors).foldl Factors.insert .empty
    let lost := fs.powers.any fun (b, xs) => holdsInfinity b && xs.any fun x => x.2.isZero
    if fs.number == .undefined || lost then undefined
    else
      let powers := fs.powers.flatMap fun (b, xs) => powersOf build b xs
      if powers.any isCompound then
        build.product (number fs.number :: power minusOne (ofRat fs.turn) :: powers)
      else
        let (odd, turns) := Factors.turnParts fs.turn
        let n := if odd then fs.number.neg else fs.number
        let all := powers ++ turns
        match n with
        | .infinite _ =>
          let (kept, turned) := besideInfinity true all
          scaled build (if turned then n.neg else n) kept
        | .unsigned => scaled build n (besideInfinity false all).1
        | _ => scaled build n all

end Term

end QuantumGates
