-- Operations made from values. Values are first bound to the fields, those in a row before those
-- by name, and then brought to the form of their field one after another: a qubit is a whole
-- number that is not negative, a parameter a number or an expression, a flag anything at all.
import QuantumGates.Datum.Text

namespace QuantumGates

/-! ## Binding -/

/-- The values for some fields, first those in a row and then those by name. -/
def bindFields (named : List (String × Datum)) :
    List String → List Datum → Except ArgumentFault (List Datum)
  | [], [] => .ok []
  | [], _ :: _ => .error .tooMany
  | f :: fs, x :: xs => do
    if (named.lookup f).isSome then throw (.repeated f)
    return x :: (← bindFields named fs xs)
  | f :: fs, [] =>
    match named.lookup f with
    | none => .error (.missing f)
    | some x => do return x :: (← bindFields named fs [])

/-- The values for all fields; each value by name must be for one of them. -/
def bindArguments (fields : List String) (row : List Datum) (named : List (String × Datum)) :
    Except ArgumentFault (List Datum) := do
  let values ← bindFields named fields row
  match named.find? fun (n, _) => !fields.contains n with
  | some (n, _) => throw (.unexpected n)
  | none => return values

/-! ## The form of a field -/

/-- The members of a value for a field that takes several, which a text is not. -/
def Datum.itemsFor (refusal : ValueKind → Fault Float) (d : Datum) :
    Except (Fault Float) (List Datum) :=
  match d with
  | .text _ => .error (refusal d.kind)
  | _ => d.items

/-- A value in the form of a field. -/
def FieldKind.read : (k : FieldKind) → Datum → Except (Fault Float) (k.Carrier (Param Float))
  | .qubit, d => d.qubit
  | .qubits, d => do (← d.itemsFor .qubitList).mapM Datum.qubit
  | .parameter, d => d.toParam
  | .parameters, d => do (← d.itemsFor .parameterList).mapM Datum.toParam
  | .flag, d => .ok d.isTrue
  | .name, d =>
    match d with
    | .text s => .ok s
    | _ => .error (.noText d.kind)

/-- Values in the form of some fields, in their order. -/
def Args.read : (fs : List Field) → List Datum → Except (Fault Float) (Args (Param Float) fs)
  | [], _ => .ok ()
  | f :: fs, values => do
    let x ← f.kind.read (values.headD .nothing)
    let rest ← Args.read fs values.tail
    return (x, rest)

/-! ## Operations -/

namespace Operation

/-- An operation of a kind made from values. -/
def ofValues (k : Kind) (row : List Datum) (named : List (String × Datum)) :
    Except (Fault Float) (Operation (Param Float)) := do
  let fields := k.fields.map (·.name)
  match bindArguments fields row named with
  | .error fault => throw (.arguments k.name fields fault)
  | .ok values => return ⟨k, ← Args.read k.fields values⟩

/-- An operation given by its name and made from values. A family has no operations of its
own. -/
def make (name : String) (row : List Datum) (named : List (String × Datum)) :
    Except (Fault Float) (Operation (Param Float)) :=
  match Kind.ofName? name with
  | some k => ofValues k row named
  | none =>
    if (Family.ofName? name).isSome then .error (.abstractOperation name)
    else .error (.unknownOperation (quoted name))

end Operation

/-- Involved qubits of a kind given as a value. -/
def Involved.ofValues (kind : Datum) (qubits : List Datum) : Except (Fault Float) Involved :=
  match kind with
  | .text s =>
    match InvolvedKind.ofName? s with
    | some k => do return make k (← qubits.mapM Datum.index)
    | .none => .error (.involvedKind kind.shown)
  | _ => .error (.involvedKind kind.shown)

end QuantumGates
