-- Records: operations and parameters as plain values. A record is a mapping with one entry, the
-- name and the content; reading a record gives back what was written, and refuses one that has
-- no known name or lacks a field.
import QuantumGates.Datum.Construct
import QuantumGates.Datum.Table

namespace QuantumGates

/-! ## Parameters -/

namespace Param

/-- The record of a parameter. -/
def toRecord : Param Float → Datum
  | literal x => .mapping [(.text "Float", .number x)]
  | expression s => .mapping [(.text "Str", .text s)]

/-- The parameter of a record. -/
def ofRecord (d : Datum) : Except (Fault Float) (Param Float) := do
  let items ← d.items
  if items.length ≠ 1 then throw (.parameterCount d.shown)
  match d with
  | .mapping [(kind, value)] =>
    match kind.keyText? with
    | some "Float" => return literal (← value.toDouble)
    | some "Str" => return expression value.written
    | _ => throw (.parameterKind kind.shown)
  | _ => throw .noAttribute

end Param

/-! ## Operations -/

namespace FieldValue

/-- The value of a field as a plain value. -/
def toDatum : FieldValue (Param Float) → Datum
  | qubit q => .integer q
  | qubits qs => .list (qs.map fun q => .integer (Int.ofNat q))
  | parameter p => p.toRecord
  | parameters ps => .list (ps.map Param.toRecord)
  | flag b => .boolean b
  | name s => .text s

end FieldValue

/-- A parameter of a record, which may also stand there as it is. -/
def Datum.fromRecord (d : Datum) : Except (Fault Float) Datum :=
  match d with
  | .mapping _ => (Param.ofRecord d).map .parameter
  | _ => .ok d

/-- The value of a field of a record, its parameters read from their own records. -/
def FieldKind.fromRecord : FieldKind → Datum → Except (Fault Float) Datum
  | .parameter, d => d.fromRecord
  | .parameters, d => do return .list (← (← d.items).mapM Datum.fromRecord)
  | _, d => .ok d

/-- The content of a record under the name of a field. -/
def Datum.contentOf (content : Datum) (field : String) : Except (Fault Float) Datum :=
  match content with
  | .mapping es => do
    match ← Datum.lookup (.text field) es with
    | some v => return v
    | none => throw (.missingField field)
  | _ => .error .wrongType

namespace Operation

/-- The record of an operation. -/
def toRecord (op : Operation (Param Float)) : Datum :=
  .mapping [(.text op.kind.name,
    .mapping (op.entries.map fun (n, v) => (.text n, v.toDatum)))]

/-- An operation of a kind read from the content of its record. -/
def ofContent (k : Kind) (content : Datum) : Except (Fault Float) (Operation (Param Float)) := do
  let values ← k.fields.mapM fun f => do
    let v ← content.contentOf f.name
    f.kind.fromRecord v
  return ⟨k, ← Args.read k.fields values⟩

/-- The operation of a record, which must be one of those that `family` names. -/
def ofRecord (family : String) (d : Datum) : Except (Fault Float) (Operation (Param Float)) := do
  let items ← d.items
  if items.length ≠ 1 then throw (.recordCount (Datum.list items).shown)
  match d with
  | .mapping [(name, content)] =>
    match name.keyText?.bind Kind.ofName? with
    | none => throw (.unknownOperation name.shown)
    | some k =>
      if !k.isCalled family then throw (.otherFamily name.written family)
      ofContent k content
  | _ => throw .noAttribute

end Operation

/-! ## Renaming -/

/-- The member of a value under a qubit: that of a mapping with this key, or the one at this
place of a sequence. -/
def Datum.at (d : Datum) (q : Nat) : Except (Fault Float) Datum :=
  match d with
  | .mapping es => do
    match ← Datum.lookup (.integer q) es with
    | some v => return v
    | none => throw (.unmappedQubit q)
  | .list _ | .tuple _ | .text _ | .circuit _ => do
    match (← d.items)[q]? with
    | some v => return v
    | none => throw .outOfBounds
  | _ => .error .wrongType

/-- The new name of a qubit under a value that maps qubits to qubits. -/
def Datum.rename (d : Datum) (q : Nat) : Except (Fault Float) Nat := do (← d.at q).qubit

/-- An operation renamed under a value that maps qubits to qubits. -/
def Operation.remapWith (op : Operation (Param Float)) (mapping : Datum) :
    Except (Fault Float) (Operation (Param Float)) := op.remap mapping.rename

/-- A circuit renamed under a value that maps qubits to qubits. -/
def Circuit.remapWith (c : Circuit Float) (mapping : Datum) :
    Except (Fault Float) (Circuit Float) :=
  c.remap mapping.rename

end QuantumGates
