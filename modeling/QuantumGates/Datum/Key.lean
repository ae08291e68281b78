-- When two values are equal, and when they are the same key of a mapping. Numbers are compared
-- without loss whatever their sort; a parameter is equal to the number or text that it could be
-- made from. Keys are the same when they are equal and have the same hash; what can change has
-- no hash.
import QuantumGates.Datum.Basic

namespace QuantumGates

/-! ## Numbers without loss -/

/-- A double or whole number, a finite one in normal form. -/
inductive Exact
  | finite (x : BigFloat)
  | infinite (negative : Bool)
  | undefined
deriving DecidableEq

namespace Exact

def ofInt (n : Int) : Exact := finite (BigFloat.ofInt n).normal

def ofFloat (x : Float) : Exact :=
  if x.isNaN then undefined
  else if x.isInf then infinite (isNegativeFloat x)
  else finite (BigFloat.ofFloat x).normal

/-- Equal as numbers; an undefined one is equal to none. -/
def equal : Exact → Exact → Bool
  | undefined, _ => false
  | a, b => a == b

end Exact

/-- The real and the imaginary part of a value that is a number. -/
def Datum.parts? : Datum → Option (Exact × Exact)
  | boolean b => some (.ofInt (if b then 1 else 0), .ofInt 0)
  | integer n => some (.ofInt n, .ofInt 0)
  | number x => some (.ofFloat x, .ofInt 0)
  | complex x y => some (.ofFloat x, .ofFloat y)
  | _ => none

/-! ## Hashes -/

/-- The hash of a value. -/
inductive HashKey
  /-- The hash of a value that is not the same as any other. -/
  | unique
  | nothing
  | number (residue : Int)
  | text (s : String)
  | tuple (members : List HashKey)
  | fixedSet (size : Nat)
  | operation (name : String) (fields : List HashKey)
  | involved (i : Involved)

namespace HashKey

/-- No number has this hash. -/
def reserved (n : Int) : Int := if n = -1 then -2 else n

/-- The residue of a number for the prime `2 ^ 61 - 1`, with the sign of the number. -/
def residue (x : BigFloat) : Int :=
  let p := Nat.pow 2 61 - 1
  let r : Nat := x.mantissa.natAbs % p * Nat.pow 2 (x.exponent % 61).toNat % p
  reserved (x.mantissa.sign * r)

/-- The hash of a number, nothing if it is undefined. -/
def ofExact? : Exact → Option Int
  | .finite x => some (residue x)
  | .infinite negative => some (if negative then -314159 else 314159)
  | .undefined => none

/-- The hash of a number with two parts. -/
def ofParts (re im : Exact) : HashKey :=
  match ofExact? re, ofExact? im with
  | some a, some b => number (reserved (Int.bmod (a + 1000003 * b) (Nat.pow 2 64)))
  | _, _ => unique

/-- The empty text has the hash of nought. -/
def ofText (s : String) : HashKey := if s.isEmpty then number 0 else text s

def ofParam : Param Float → HashKey
  | .literal x => ofParts (.ofFloat x) (.ofInt 0)
  | .expression s => ofText s

def ofNat (n : Nat) : HashKey := ofParts (.ofInt n) (.ofInt 0)

def ofField : FieldValue (Param Float) → HashKey
  | .qubit q => ofNat q
  | .qubits qs => tuple (qs.map ofNat)
  | .parameter p => ofParam p
  | .parameters ps => tuple (ps.map ofParam)
  | .flag b => ofNat (if b then 1 else 0)
  | .name s => ofText s

/-- The hash of an operation: its name and the hashes of its fields. -/
def ofOperation (op : Operation (Param Float)) : HashKey :=
  operation op.kind.name (op.values.map ofField)

mutual

/-- Whether two hashes are the same. -/
def same : HashKey → HashKey → Bool
  | nothing, nothing => true
  | number a, number b => a == b
  | text s, text t => s == t
  | tuple as, tuple bs => sameAll as bs
  | fixedSet m, fixedSet n => m == n
  | operation s as, operation t bs => s == t && sameAll as bs
  | involved i, involved j => i == j
  | _, _ => false

def sameAll : List HashKey → List HashKey → Bool
  | [], [] => true
  | a :: as, b :: bs => same a b && sameAll as bs
  | _, _ => false

end

end HashKey

namespace Datum

mutual

/-- The hash of a value; lists, sets, mappings and circuits have none. -/
def hashKey : Datum → Except (Fault Float) HashKey
  | nothing => .ok .nothing
  | text s => .ok (.ofText s)
  | tuple xs => (hashKeys xs).map .tuple
  | fixedSet xs => .ok (.fixedSet xs.length)
  | parameter p => .ok (.ofParam p)
  | bindings _ => .ok .unique
  | operation op => .ok (.ofOperation op)
  | involved i => .ok (.involved i)
  | d =>
    match d.parts? with
    | some (re, im) => .ok (.ofParts re im)
    | none => .error .wrongType

def hashKeys : List Datum → Except (Fault Float) (List HashKey)
  | [] => .ok []
  | x :: xs => do
    let k ← hashKey x
    let ks ← hashKeys xs
    return k :: ks

end

/-- Whether two values have the same hash. -/
def sameHash (a b : Datum) : Except (Fault Float) Bool := do
  let j ← a.hashKey
  let k ← b.hashKey
  return j.same k

/-! ## Equality -/

/-- Whether a parameter is equal to a value. -/
def equalsParam (p : Param Float) (d : Datum) : Except (Fault Float) Bool :=
  match d.parameter? with
  | some q => q.map p.equal
  | none => .ok false

/-- The members of a set of either sort. -/
def members? : Datum → Option (List Datum)
  | set xs | fixedSet xs => some xs
  | _ => none

/-- Whether a whole number is equal to a value. -/
def equalsInteger (n : Int) (d : Datum) : Except (Fault Float) Bool :=
  match d with
  | parameter p => equalsParam p (integer n)
  | _ =>
    match d.parts? with
    | some (x, x') => .ok ((Exact.ofInt n).equal x && (Exact.ofInt 0).equal x')
    | none => .ok false

/-- Whether a test holds of one of some values. -/
def anyOf (test : Datum → Except (Fault Float) Bool) : List Datum → Except (Fault Float) Bool
  | [] => .ok false
  | x :: xs => do if ← test x then return true else anyOf test xs

/-- Whether all qubits are among some values. -/
def allAmong (ys : List Datum) : List Int → Except (Fault Float) Bool
  | [] => .ok true
  | q :: qs => do
    let found ← anyOf
      (fun y => do if ← sameHash (integer q) y then equalsInteger q y else return false) ys
    if found then allAmong ys qs else return false

/-- Whether involved qubits are equal to a value: to others like them, or to the set of them. -/
def equalsInvolved (i : Involved) : Datum → Except (Fault Float) Bool
  | involved j => .ok (i == j)
  | d =>
    match d.members? with
    | some ys =>
      if i.kind ≠ .set ∨ i.qubits.length ≠ ys.length then .ok false else allAmong ys i.qubits
    | none => .ok false

/-- Whether two values without members are equal. -/
def equalPlain (a b : Datum) : Except (Fault Float) Bool :=
  match a, b with
  | parameter p, d | d, parameter p => equalsParam p d
  | involved i, d | d, involved i => equalsInvolved i d
  | nothing, nothing => .ok true
  | text s, text t => .ok (s == t)
  | operation x, operation y => .ok (x.equal y)
  | circuit x, circuit y => .ok (Circuit.equal x y)
  | _, _ =>
    match a.parts?, b.parts? with
    | some (x, x'), some (y, y') => .ok (x.equal y && x'.equal y')
    | _, _ => .ok false

/-- The test of the value that the first entry with a fitting key has. -/
def atKey (isKey test : Datum → Except (Fault Float) Bool) :
    List (Datum × Datum) → Except (Fault Float) Bool
  | [] => .ok false
  | (k, v) :: es => do if ← isKey k then test v else atKey isKey test es

mutual

/-- Whether two values are equal. Sets and mappings are compared without regard to order. -/
def equal : Datum → Datum → Except (Fault Float) Bool
  | list xs, d =>
    match d with
    | list ys => if xs.length ≠ ys.length then .ok false else equalAll xs ys
    | _ => .ok false
  | tuple xs, d =>
    match d with
    | tuple ys => equalAll xs ys
    | _ => .ok false
  | set xs, d =>
    match d.members? with
    | some ys => if xs.length ≠ ys.length then .ok false else allIn ys xs
    | none => equalPlain (set xs) d
  | fixedSet xs, d =>
    match d.members? with
    | some ys => if xs.length ≠ ys.length then .ok false else allIn ys xs
    | none => equalPlain (fixedSet xs) d
  | mapping es, d =>
    match d with
    | mapping fs => if es.length ≠ fs.length then .ok false else allEntriesIn fs es
    | _ => .ok false
  | a, d => equalPlain a d

/-- Whether lists have the same length and equal members. -/
def equalAll : List Datum → List Datum → Except (Fault Float) Bool
  | [], ys => .ok ys.isEmpty
  | _ :: _, [] => .ok false
  | x :: xs, y :: ys => do if ← equal x y then equalAll xs ys else return false

/-- Whether all members of a set are in another. -/
def allIn (ys : List Datum) : List Datum → Except (Fault Float) Bool
  | [] => .ok true
  | x :: xs => do
    let found ← anyOf (fun y => do if ← sameHash x y then equal x y else return false) ys
    if found then allIn ys xs else return false

/-- Whether another mapping has all entries of a mapping. -/
def allEntriesIn (fs : List (Datum × Datum)) : List (Datum × Datum) → Except (Fault Float) Bool
  | [] => .ok true
  | (k, v) :: es => do
    let found ← atKey (fun l => do if ← sameHash k l then equal k l else return false)
      (equal v) fs
    if found then allEntriesIn fs es else return false

end

/-! ## Keys -/

/-- Whether two values are the same key. -/
def sameKey (a b : Datum) : Except (Fault Float) Bool := do
  if ← a.sameHash b then a.equal b else return false

/-- The value of a key among the entries of a mapping. -/
def lookup (key : Datum) : List (Datum × Datum) → Except (Fault Float) (Option Datum)
  | [] => do
    let _ ← key.hashKey
    return none
  | (k, v) :: es => do if ← key.sameKey k then return some v else lookup key es

/-- Adds an entry to a mapping. A key that is there keeps its place and gets the new value. -/
def insertEntry (entries : List (Datum × Datum)) (key value : Datum) :
    Except (Fault Float) (List (Datum × Datum)) := do
  match entries with
  | [] =>
    let _ ← key.hashKey
    return [(key, value)]
  | (k, v) :: es =>
    if ← key.sameKey k then return (k, value) :: es
    else return (k, v) :: (← insertEntry es key value)

/-- The mapping with the given entries, the last value of each key. -/
def mappingOf (entries : List (Datum × Datum)) : Except (Fault Float) Datum :=
  (entries.foldlM (fun es (k, v) => insertEntry es k v) []).map mapping

/-- Adds a member to a set, unless it is there. -/
def insertMember (members : List Datum) (x : Datum) : Except (Fault Float) (List Datum) := do
  let _ ← x.hashKey
  if ← anyOf x.sameKey members then return members else return members ++ [x]

/-- Whole numbers in ascending order; other members stay as they are. -/
def inOrder (members : List Datum) : List Datum :=
  match members.mapM index? with
  | some ns =>
    ((ns.zip members).mergeSort fun a b => decide (a.1 ≤ b.1)).map Prod.snd
  | none => members

/-- The members of a set, each once. -/
def distinct (xs : List Datum) : Except (Fault Float) (List Datum) :=
  (xs.foldlM insertMember []).map inOrder

end Datum

end QuantumGates
