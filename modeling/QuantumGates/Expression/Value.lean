-- The value of a term without variables as a complex number of many digits. A term that is
-- infinite or undefined has none. Rounded numbers in a term count as what they are, so that
-- only the last step, the rounding to a double, loses digits.
import QuantumGates.Expression.Term

namespace QuantumGates

/-- The binary digits that values are computed with. -/
def valueDigits : Nat := 320

namespace BigComplex

/-- Numbers beyond this power of two have no angle that could be known. -/
def largestAngle : Int := 100000

def isModerate (z : BigComplex) : Bool :=
  decide (z.re.magnitude < largestAngle) && decide (z.im.magnitude < largestAngle)

/-- A power, if it is finite. -/
def power? (p : Nat) (z w : BigComplex) : Option BigComplex :=
  if w.isZero then some one
  else if z.isZero then
    if w.re.isZero || w.re.isNegative then none else some zero
  else some (pow p z w)

/-- The sign of a number, or its direction if it is not real. -/
def direction (p : Nat) (z : BigComplex) : BigComplex :=
  if z.isZero then zero
  else if z.isReal then (if z.re.isNegative then one.neg else one)
  else divReal p z (abs (p + 8) z)

/-- The angle of a point in the plane, for real coordinates and for the formula that extends it. -/
def angle? (p : Nat) (y x : BigComplex) : Option BigComplex :=
  if y.isReal && x.isReal then
    if y.isZero && x.isZero then none
    else if y.isZero && !x.re.isNegative then some zero
    else some (ofReal (BigFloat.atan2 p y.re x.re))
  else
    let q := p + 64
    let size := sqrt q (add q (mul q x x) (mul q y y))
    if size.isZero then none
    else
      let u := div q (add q x y.timesI) size
      if u.isZero then none else some (log p u).timesI.neg

/-- The value of a function, if it is finite. -/
def valueOf? (p : Nat) (f : Fn) (args : List BigComplex) : Option BigComplex :=
  if !args.all isModerate then none
  else
    match f, args with
    | .sin, [z] => some (sin p z)
    | .cos, [z] => some (cos p z)
    | .tan, [z] =>
      let c := cos p z
      if c.isZero then none else some (div p (sin p z) c)
    | .asin, [z] => some (asin p z)
    | .acos, [z] => some (acos p z)
    | .atan, [z] =>
      if z == i || z == i.neg then none else some (atan p z)
    | .atan2, [y, x] => angle? p y x
    | .sinh, [z] => some (sinh p z)
    | .cosh, [z] => some (cosh p z)
    | .tanh, [z] => if (cosh p z).isZero then none else some (tanh p z)
    | .exp, [z] => some (exp p z)
    | .log, [z] => if z.isZero then none else some (log p z)
    | .sqrt, [z] => if z.isZero then some zero else some (sqrt p z)
    | .abs, [z] => some (ofReal (abs p z))
    | .sign, [z] => some (direction p z)
    | _, _ => none

end BigComplex

namespace Term

mutual

/-- The value of a term without variables. -/
def value? : Term → Option BigComplex
  | number (.finite q) => some (.ofReal (q.toBigFloat valueDigits))
  | number _ => none
  | pi => some (.ofReal (BigFloat.pi valueDigits))
  | e => some (.ofReal (BigFloat.exp valueDigits .one))
  | i => some .i
  | var _ => none
  | power b x =>
    match b, value? b, value? x with
    | e, _, some w => some (BigComplex.exp valueDigits w)
    | _, some z, some w => BigComplex.power? valueDigits z w
    | _, _, _ => none
  | product ts => (values? ts).map fun zs => zs.foldl (BigComplex.mul valueDigits) .one
  | sum ts => (values? ts).map fun zs => zs.foldl (BigComplex.add valueDigits) .zero
  | apply f ts => (values? ts).bind (BigComplex.valueOf? valueDigits f)

/-- The values of several terms, if all have one. -/
def values? : List Term → Option (List BigComplex)
  | [] => some []
  | t :: ts =>
    match value? t, values? ts with
    | some z, some zs => some (z :: zs)
    | _, _ => none

end

/-- The value of a real term without variables. -/
def realValue? (t : Term) : Option BigFloat :=
  match t with
  | var _ => none
  | _ =>
    match t.value? with
    | some z => if z.isReal then some z.re else none
    | none => none

/-- Whether a term is known not to be below nought: by its value, or as a magnitude. -/
def isNonNegative (t : Term) : Bool :=
  match t with
  | apply .abs _ => true
  | _ =>
    match t.realValue? with
    | some x => !x.isNegative
    | none => false

/-- A term for a complex number of rounded parts. -/
def ofComplex (digits : Nat) (z : BigComplex) : Term :=
  let re := Quantity.ofResult digits z.re
  let im := Quantity.ofResult digits z.im
  let imaginary := product [ofQuantity im, Term.i]
  if im.isZero then ofQuantity re
  else if re.isZero then imaginary
  else sum [ofQuantity re, imaginary]

/-- The digits of a rounded number, or of a complex number with a rounded part. -/
def roundedDigits? : Term → Option Nat
  | number (.finite q) => q.digits?
  | sum [number (.finite a), product [number (.finite b), .i]] =>
    if a.digits?.isSome || b.digits?.isSome then some (a.commonDigits b) else none
  | sum [number (.finite a), .i] => a.digits?
  | _ => none

end Term

end QuantumGates
