-- Tables of variables made from values. A name must be an identifier and its value a number, or
-- something that a number can be read from.
import QuantumGates.Datum.Key
import QuantumGates.Datum.Text

namespace QuantumGates

namespace Datum

/-- The text that a key stands for, which may be held by a parameter. -/
def keyText? : Datum → Option String
  | text s => some s
  | parameter (.expression s) => some s
  | _ => none

/-- A value with two members as an entry of a mapping. -/
def pair (d : Datum) : Except (Fault Float) (Datum × Datum) := do
  match ← d.items with
  | [k, v] => return (k, v)
  | _ => throw .wrongValue

/-- The entries of a mapping, or those given one by one as pairs. -/
def pairs (d : Datum) : Except (Fault Float) (List (Datum × Datum)) :=
  match d with
  | mapping es => .ok es
  | _ => do
    let items ← d.items
    items.foldlM (fun es x => do
      let (k, v) ← x.pair
      insertEntry es k v) []

end Datum

namespace Bindings

/-- Sets a variable to a value. -/
def assign (b : Bindings Float) (name value : Datum) : Except (Fault Float) (Bindings Float) :=
  match name with
  | .text s =>
    if isPlainIdentifier s.toList then value.toDouble.map (b.set s)
    else .error (.variableName name.shown)
  | _ => .error (.variableName name.shown)

/-- The value of a variable that must be set. -/
def valueOf (b : Bindings Float) (name : Datum) : Except (Fault Float) Float := do
  let _ ← name.hashKey
  match name.keyText?.bind b.get? with
  | some x => return x
  | none => throw (.variableUnset name.shown)

/-- Sets variables one after another. -/
def assignAll (entries : List (Datum × Datum)) : Except (Fault Float) (Bindings Float) :=
  entries.foldlM (fun b (k, v) => b.assign k v) empty

/-- The table with the entries of a value; nothing stands for the empty table. -/
def make (d : Datum) : Except (Fault Float) (Bindings Float) :=
  match d with
  | .nothing => .ok empty
  | _ => do assignAll (← d.pairs)

/-- A value as the table that parameters are evaluated under. -/
def ofDatum : Datum → Except (Fault Float) (Bindings Float)
  | .nothing => .ok empty
  | .bindings b => .ok b
  | .mapping es => assignAll es
  | d => .error (.noBindings d.kind)

/-- The value of a text that must be an expression. -/
def evaluateDatum (b : Bindings Float) : Datum → Except (Fault Float) Float
  | .text s => b.evaluate s
  | d => do
    let _ ← d.hashKey
    throw .noAttribute

/-- The number that a value stands for: a number itself, or the value of an expression. -/
def resolve (b : Bindings Float) (d : Datum) : Except (Fault Float) Float :=
  match d.parameter? with
  | some p => do (← p).value b.evaluate
  | none => .error (.noExpression d.kind)

end Bindings

/-- A parameter evaluated under a table given as a value, which a number does not look at. -/
def Param.substituteWith (p : Param Float) (table : Datum) : Except (Fault Float) (Param Float) :=
  match p with
  | .literal _ => .ok p
  | .expression _ => do p.substitute (← Bindings.ofDatum table).evaluate

/-- An operation evaluated under a table given as a value. -/
def Operation.substituteWith (op : Operation (Param Float)) (table : Datum) :
    Except (Fault Float) (Operation (Param Float)) := do
  op.substitute (← Bindings.ofDatum table).evaluate

/-- A circuit evaluated under a table given as a value. -/
def Circuit.substituteWith (c : Circuit Float) (table : Datum) :
    Except (Fault Float) (Circuit Float) := do
  c.substitute (← Bindings.ofDatum table).evaluate

end QuantumGates
