-- The fields of an operation and the values that they hold. A list of fields fixes the type of
-- the values, so that a record always has just the fields of its kind, each of its own sort.
-- Whatever is done to all qubits or all parameters of an operation is said once, by `traverse`.
namespace QuantumGates

/-- What a field holds. -/
inductive FieldKind
  | qubit
  | qubits
  | parameter
  | parameters
  | flag
  | name
deriving DecidableEq, Repr

/-- The name of a sort of fields. -/
def FieldKind.label : FieldKind → String
  | qubit => "qubit"
  | qubits => "qubits"
  | parameter => "parameter"
  | parameters => "parameters"
  | flag => "flag"
  | name => "name"

/-- The values of a field, `P` being the type of parameters. -/
abbrev FieldKind.Carrier (P : Type) : FieldKind → Type
  | qubit => Nat
  | qubits => List Nat
  | parameter => P
  | parameters => List P
  | flag => Bool
  | name => String

structure Field where
  name : String
  kind : FieldKind
deriving DecidableEq, Repr

/-- One value for each field. -/
abbrev Args (P : Type) : List Field → Type
  | [] => Unit
  | f :: fs => f.kind.Carrier P × Args P fs

/-- The value of a field together with its sort. -/
inductive FieldValue (P : Type)
  | qubit (q : Nat)
  | qubits (qs : List Nat)
  | parameter (p : P)
  | parameters (ps : List P)
  | flag (b : Bool)
  | name (s : String)

namespace FieldValue

variable {P : Type}

/-- The qubits that a value holds. -/
def qubitList : FieldValue P → List Nat
  | qubit q => [q]
  | qubits qs => qs
  | _ => []

/-- The parameters that a value holds. -/
def parameterList : FieldValue P → List P
  | parameter p => [p]
  | parameters ps => ps
  | _ => []

/-- Lists of the same length whose members agree one by one. -/
def agree (same : P → P → Bool) : List P → List P → Bool
  | [], [] => true
  | p :: ps, q :: qs => same p q && agree same ps qs
  | _, _ => false

/-- The same value, `same` deciding on parameters. -/
def equalBy (same : P → P → Bool) : FieldValue P → FieldValue P → Bool
  | qubit a, qubit b => a == b
  | qubits as, qubits bs => as == bs
  | parameter p, parameter q => same p q
  | parameters ps, parameters qs => agree same ps qs
  | flag a, flag b => a == b
  | name a, name b => a == b
  | _, _ => false

end FieldValue

section

variable {P Q : Type} {m : Type → Type} [Monad m]

/-- The value of a field with its sort. -/
def FieldKind.tagged : (k : FieldKind) → k.Carrier P → FieldValue P
  | .qubit, q => .qubit q
  | .qubits, qs => .qubits qs
  | .parameter, p => .parameter p
  | .parameters, ps => .parameters ps
  | .flag, b => .flag b
  | .name, s => .name s

/-- Changes the qubits and the parameters of a value. -/
def FieldKind.traverse (onQubit : Nat → m Nat) (onParameter : P → m Q) :
    (k : FieldKind) → k.Carrier P → m (k.Carrier Q)
  | .qubit, q => onQubit q
  | .qubits, qs => qs.mapM onQubit
  | .parameter, p => onParameter p
  | .parameters, ps => ps.mapM onParameter
  | .flag, b => pure b
  | .name, s => pure s

namespace Args

/-- The values with their sorts, in the order of the fields. -/
def values : (fs : List Field) → Args P fs → List (FieldValue P)
  | [], _ => []
  | f :: fs, (x, rest) => f.kind.tagged x :: values fs rest

/-- Changes the qubits and the parameters of all values, in the order of the fields. -/
def traverse (onQubit : Nat → m Nat) (onParameter : P → m Q) :
    (fs : List Field) → Args P fs → m (Args Q fs)
  | [], _ => pure ()
  | f :: fs, (x, rest) => do
    let x ← f.kind.traverse onQubit onParameter x
    let rest ← traverse onQubit onParameter fs rest
    pure (x, rest)

/-- One value for each field, made in the order of the fields. -/
def build (make : (f : Field) → m (f.kind.Carrier P)) : (fs : List Field) → m (Args P fs)
  | [] => pure ()
  | f :: fs => do
    let x ← make f
    let rest ← build make fs
    pure (x, rest)

/-- Changes the parameter of a given name. -/
def onNamed (name : String) (change : P → P) : (fs : List Field) → Args P fs → Args P fs
  | [], _ => ()
  | ⟨n, .parameter⟩ :: fs, (p, rest) =>
    (if n = name then change p else p, onNamed name change fs rest)
  | _ :: fs, (x, rest) => (x, onNamed name change fs rest)

end Args

end

end QuantumGates
