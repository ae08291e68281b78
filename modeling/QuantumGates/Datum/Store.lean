-- Circuits as objects that can be changed. A value holds a circuit by its operations; here each
-- circuit has a place, so that one can be extended where it stands and can be its own operand.
-- An extension takes its operand member by member, and reads a circuit of the store as it then
-- is, with what has been appended meanwhile.
import QuantumGates.Datum.Sequence

namespace QuantumGates

/-- The circuits that there are, each at its place. -/
abbrev CircuitStore := List (Circuit Float)

/-- What stands to the right of a sum: a value, or a circuit of the store. -/
inductive Summand
  | value (d : Datum)
  | stored (place : Nat)

/-- What the members of a summand are read from. -/
inductive Source
  | values (ds : List Datum)
  | stored (place : Nat)

/-- Where the members are read from; only operations, circuits, lists and tuples can be added.
An operation is its own only member. -/
def Summand.source? : Summand → Option Source
  | stored place => some (.stored place)
  | value d =>
    match d with
    | .operation op => some (.values [.operation op])
    | .circuit ops => some (.values (ops.map .operation))
    | .list ds | .tuple ds => some (.values ds)
    | _ => none

/-- The circuit at a place. -/
def CircuitStore.content (s : CircuitStore) (place : Nat) : Circuit Float :=
  s[place]?.getD []

/-- The member at a position, as the store now is. -/
def Source.member? (s : CircuitStore) (i : Nat) : Source → Option Datum
  | values ds => ds[i]?
  | stored place => (s.content place)[i]?.map .operation

/-- How far an extension has come. -/
inductive Course
  /-- The members before the position have been appended to the circuit at the target. -/
  | appending (s : CircuitStore) (target : Nat) (source : Source) (position : Nat)
  | finished (s : CircuitStore)
  | refused (s : CircuitStore) (fault : Fault Float)

namespace Course

/-- The circuits as they are by now. -/
def store : Course → CircuitStore
  | appending s _ _ _ | finished s | refused s _ => s

/-- One turn of the loop. -/
def next : Course → Course
  | appending s target source i =>
    match source.member? s i with
    | none => finished s
    | some d =>
      match (s.content target).append d with
      | .ok c => appending (s.set target c) target source (i + 1)
      | .error fault => refused s fault
  | course => course

end Course

namespace CircuitStore

/-- The start of the extension of a circuit where it stands. -/
def extend (s : CircuitStore) (target : Nat) (x : Summand) : Course :=
  match x.source? with
  | some source => .appending s target source 0
  | none => .refused s .wrongType

/-- The start of the sum of a circuit and a summand: a copy of the left operand at the end of the
store, which is then extended. -/
def plus (s : CircuitStore) (left : Nat) (x : Summand) : Course :=
  match x.source? with
  | some source => .appending (s ++ [s.content left]) s.length source 0
  | none => .refused s .wrongType

end CircuitStore

end QuantumGates
