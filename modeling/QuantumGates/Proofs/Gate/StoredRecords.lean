-- Records as an operation keeps them: values under names, which no type guards. The constructor
-- brings every value to the form of its field. Copies with other parameters, other qubits or another
-- angle are taken without a check, so it is shown of each that it leaves the values in their form,
-- by comparing it with the same change of an operation. Every record that is reached has the form,
-- and the constructor makes it again from its own values.
import Mathlib.Data.Set.List
import QuantumGates.Datum.Algebra
import QuantumGates.Datum.Sequence
import QuantumGates.Proofs.Datum.Hashes
import QuantumGates.Proofs.Gate.Records

namespace QuantumGates

/-! ## Stored values -/

/-- A qubit as a value. -/
def Datum.ofQubit (q : ℕ) : Datum := .integer q

namespace FieldKind

/-- The value of a field as a record stores it. -/
def stored : (k : FieldKind) → k.Carrier (Param Float) → Datum
  | .qubit, q => .ofQubit q
  | .qubits, qs => .tuple (qs.map .ofQubit)
  | .parameter, p => .parameter p
  | .parameters, ps => .tuple (ps.map .parameter)
  | .flag, b => .boolean b
  | .name, s => .text s

/-- A value in the form that a field stores: a whole number that is not negative, a parameter, a
fixed row of those, a truth or a text. -/
def IsNormal : FieldKind → Datum → Prop
  | .qubit, d => ∃ q, d = .ofQubit q
  | .qubits, d => ∃ ds, d = .tuple ds ∧ ∀ x ∈ ds, ∃ q, x = .ofQubit q
  | .parameter, d => ∃ p, d = .parameter p
  | .parameters, d => ∃ ds, d = .tuple ds ∧ ∀ x ∈ ds, ∃ p, x = .parameter p
  | .flag, d => ∃ b, d = .boolean b
  | .name, d => ∃ s, d = .text s

/-- A value brought to the form that a field stores. -/
def normalize : FieldKind → Datum → Except (Fault Float) Datum
  | .qubit, d => d.qubit.map .ofQubit
  | .qubits, d => do
    let items ← d.itemsFor .qubitList
    return .tuple (← items.mapM fun x => x.qubit.map .ofQubit)
  | .parameter, d => d.toParam.map .parameter
  | .parameters, d => do
    let items ← d.itemsFor .parameterList
    return .tuple (← items.mapM fun x => x.toParam.map .parameter)
  | .flag, d => .ok (.boolean d.isTrue)
  | .name, d =>
    match d with
    | .text s => .ok (.text s)
    | _ => .error (.noText d.kind)

variable {k : FieldKind}

theorem isNormal_iff {d : Datum} : k.IsNormal d ↔ ∃ x, k.stored x = d := by
  have hrow {A : Type} (f : A → Datum) :
      (∃ ds, d = .tuple ds ∧ ∀ x ∈ ds, ∃ a, x = f a) ↔ ∃ as : List A, .tuple (as.map f) = d := by
    constructor
    · rintro ⟨ds, rfl, hds⟩
      have hrange : ds ∈ Set.range (List.map f) := by
        rw [Set.range_list_map]
        exact fun x hx => (hds x hx).imp fun a ha => ha.symm
      obtain ⟨as, rfl⟩ := hrange
      exact ⟨as, rfl⟩
    · rintro ⟨as, rfl⟩
      refine ⟨_, rfl, fun x hx => ?_⟩
      obtain ⟨a, -, rfl⟩ := List.mem_map.mp hx
      exact ⟨a, rfl⟩
  cases k with
  | qubits => exact hrow Datum.ofQubit
  | parameters => exact hrow Datum.parameter
  | qubit | parameter | flag | name => exact exists_congr fun x => eq_comm

/-- The stored form of a value is that of what the field reads from it. -/
theorem normalize_eq (k : FieldKind) (d : Datum) : k.normalize d = (k.read d).map k.stored := by
  cases k with
  | qubit | parameter | flag => rfl
  | qubits =>
    show (d.itemsFor .qubitList >>= fun items =>
        (items.mapM fun x => x.qubit.map Datum.ofQubit) >>= fun ds =>
          Except.ok (Datum.tuple ds)) =
      (d.itemsFor .qubitList >>= fun items => items.mapM Datum.qubit).map (stored .qubits)
    cases d.itemsFor .qubitList with
    | error fault => rfl
    | ok items =>
      simp only [mapM_map]
      show ((items.mapM Datum.qubit).map _ >>= _) = (items.mapM Datum.qubit).map _
      cases items.mapM Datum.qubit <;> rfl
  | parameters =>
    show (d.itemsFor .parameterList >>= fun items =>
        (items.mapM fun x => x.toParam.map Datum.parameter) >>= fun ds =>
          Except.ok (Datum.tuple ds)) =
      (d.itemsFor .parameterList >>= fun items => items.mapM Datum.toParam).map
        (stored .parameters)
    cases d.itemsFor .parameterList with
    | error fault => rfl
    | ok items =>
      simp only [mapM_map]
      show ((items.mapM Datum.toParam).map _ >>= _) = (items.mapM Datum.toParam).map _
      cases items.mapM Datum.toParam <;> rfl
  | name => cases d <;> rfl

/-- A stored value is read as the value that it stores. -/
theorem read_stored (k : FieldKind) (x : k.Carrier (Param Float)) :
    k.read (k.stored x) = .ok x := by
  cases k with
  | qubit => exact Datum.qubit_natCast x
  | qubits => exact read_given .qubits x
  | parameters => exact read_given .parameters x
  | parameter | flag | name => rfl

end FieldKind

/-! ## Records -/

/-- The value of a field in the content of a written record. -/
def Field.given (content : Datum) (f : Field) : Except (Fault Float) Datum := do
  let v ← content.contentOf f.name
  f.kind.fromRecord v

/-- An operation as values that no type guards: its kind and a value under each name. -/
structure StoredRecord where
  kind : Kind
  entries : List (String × Datum)

namespace StoredRecord

/-- The values of a record in their order. -/
def values (r : StoredRecord) : List Datum := r.entries.map Prod.snd

/-- The value under a name. -/
def value (r : StoredRecord) (name : String) : Except (Fault Float) Datum :=
  match r.entries.lookup name with
  | some d => .ok d
  | none => .error (.missingField name)

/-- A record with just the fields of its kind, each in its form. -/
def IsNormal (r : StoredRecord) : Prop :=
  List.Forall₂ (fun f e => e.1 = f.name ∧ f.kind.IsNormal e.2) r.kind.fields r.entries

/-! ## The constructor -/

/-- The record that the constructor of a kind makes from values. -/
def ofValues (k : Kind) (row : List Datum) (named : List (String × Datum)) :
    Except (Fault Float) StoredRecord := do
  let fields := k.fields.map (·.name)
  match bindArguments fields row named with
  | .error fault => throw (.arguments k.name fields fault)
  | .ok values => return ⟨k, ← (k.fields.zip values).mapM fun e => do
      return (e.1.name, ← e.1.kind.normalize e.2)⟩

/-- The record that the constructor makes from the content of a written record. -/
def ofContent (k : Kind) (content : Datum) : Except (Fault Float) StoredRecord := do
  let named ← k.fields.mapM fun f => do return (f.name, ← f.given content)
  ofValues k [] named

/-- The record that a written record, which must be one of those that `family` names, is read
as. -/
def ofRecord (family : String) (d : Datum) : Except (Fault Float) StoredRecord := do
  let items ← d.items
  if items.length ≠ 1 then throw (.recordCount (Datum.list items).shown)
  match d with
  | .mapping [(name, content)] =>
    match name.keyText?.bind Kind.ofName? with
    | none => throw (.unknownOperation name.shown)
    | some k =>
      if !k.isCalled family then throw (.otherFamily name.written family)
      ofContent k content
  | _ => throw .noAttribute

/-! ## Unchecked copies -/

/-- A copy with some values changed. Nothing is checked, and a name that the record does not have
is added to it. -/
def replace (r : StoredRecord) (changes : List (String × Datum)) : StoredRecord :=
  ⟨r.kind, (r.entries.map fun e => (e.1, (changes.lookup e.1).getD e.2)) ++
    changes.filter fun e => (r.entries.lookup e.1).isNone⟩

/-- The changed values of those fields whose sort is changed, in their order. -/
def changes (r : StoredRecord) (change : FieldKind → Option (Datum → Except (Fault Float) Datum)) :
    List Field → Except (Fault Float) (List (String × Datum))
  | [] => .ok []
  | f :: fs =>
    match change f.kind with
    | none => r.changes change fs
    | some g => do
      let d ← g (← r.value f.name)
      return (f.name, d) :: (← r.changes change fs)

/-- A change of one parameter on values, those of a fixed row one by one. -/
def onParameters (change : Param Float → Except (Fault Float) (Param Float)) :
    FieldKind → Option (Datum → Except (Fault Float) Datum)
  | .parameter => some single
  | .parameters => some fun d => do return .tuple (← (← d.items).mapM single)
  | _ => none
where
  single (d : Datum) : Except (Fault Float) Datum :=
    match d with
    | .parameter p => (change p).map .parameter
    | _ => .error .noAttribute

/-- A change of one qubit on values, those of a fixed row one by one. -/
def onQubits (rename : ℕ → Except (Fault Float) ℕ) :
    FieldKind → Option (Datum → Except (Fault Float) Datum)
  | .qubit => some single
  | .qubits => some fun d => do return .tuple (← (← d.items).mapM single)
  | _ => none
where
  single (d : Datum) : Except (Fault Float) Datum :=
    match d with
    | .integer (.ofNat q) => (rename q).map .ofQubit
    | _ => .error .wrongType

/-- The copy whose parameters are evaluated under a table given as a value. -/
def substituteWith (r : StoredRecord) (table : Datum) : Except (Fault Float) StoredRecord := do
  let b ← Bindings.ofDatum table
  return r.replace (← r.changes (onParameters (Param.substitute b.evaluate)) r.kind.fields)

/-- The copy whose qubits are renamed under a value that maps qubits to qubits. -/
def remapWith (r : StoredRecord) (mapping : Datum) : Except (Fault Float) StoredRecord := do
  return r.replace (← r.changes (onQubits mapping.rename) r.kind.fields)

/-- The copy of a rotation whose angle is multiplied. -/
def powerBy (r : StoredRecord) (exponent : Datum) : Except (Fault Float) StoredRecord :=
  if r.kind.isRotation then do
    let e ← exponent.toParam
    let theta ← (← r.value "theta").operand
    return r.replace [("theta", .parameter (e.mul theta))]
  else .error (.noPower (.operation r.kind.group r.kind.name))

end StoredRecord

/-! ## Operations as records -/

/-- The names of fields and their values as a record stores them. -/
def Args.stored : (fs : List Field) → Args (Param Float) fs → List (String × Datum)
  | [], _ => []
  | f :: fs, (x, rest) => (f.name, f.kind.stored x) :: stored fs rest

/-- The record that stores an operation. -/
def Operation.record (op : Operation (Param Float)) : StoredRecord :=
  ⟨op.kind, op.args.stored op.kind.fields⟩

namespace Args

variable {fs : List Field}

theorem map_fst_stored (args : Args (Param Float) fs) :
    (args.stored fs).map Prod.fst = fs.map (·.name) := by
  induction fs with
  | nil => rfl
  | cons f fs ih =>
    obtain ⟨x, rest⟩ := args
    rw [stored, List.map_cons, List.map_cons, ih]

theorem read_stored (args : Args (Param Float) fs) :
    Args.read fs ((args.stored fs).map Prod.snd) = .ok args := by
  induction fs with
  | nil => rfl
  | cons f fs ih =>
    obtain ⟨x, rest⟩ := args
    rw [stored, List.map_cons, Args.read]
    simp only [List.headD_cons, List.tail_cons, FieldKind.read_stored, ih]
    rfl

theorem forall₂_iff_stored {es : List (String × Datum)} :
    List.Forall₂ (fun f e => e.1 = f.name ∧ f.kind.IsNormal e.2) fs es ↔
      ∃ args : Args (Param Float) fs, args.stored fs = es := by
  constructor
  · intro h
    induction h with
    | nil => exact ⟨(), rfl⟩
    | @cons f e fs es hhead _ ih =>
      obtain ⟨name, d⟩ := e
      obtain ⟨rfl, hform⟩ := hhead
      obtain ⟨x, rfl⟩ := FieldKind.isNormal_iff.mp hform
      obtain ⟨rest, rfl⟩ := ih
      exact ⟨(x, rest), rfl⟩
  · rintro ⟨args, rfl⟩
    induction fs with
    | nil => exact .nil
    | cons f fs ih =>
      obtain ⟨x, rest⟩ := args
      exact .cons ⟨rfl, FieldKind.isNormal_iff.mpr ⟨x, rfl⟩⟩ (ih rest)

/-- As many values as fields, normalized one after another, are what the fields read. -/
theorem mapM_normalize {values : List Datum} (h : values.length = fs.length) :
    ((fs.zip values).mapM fun e => do
      return (e.1.name, ← e.1.kind.normalize e.2) : Except (Fault Float) (List (String × Datum))) =
      (Args.read fs values).map (stored fs) := by
  induction fs generalizing values with
  | nil => rfl
  | cons f fs ih =>
    cases values with
    | nil => cases h
    | cons d values =>
      rw [List.zip_cons_cons, List.mapM_cons, ih (Nat.succ.inj h), FieldKind.normalize_eq,
        Args.read]
      simp only [List.headD_cons, List.tail_cons]
      cases f.kind.read d with
      | error fault => rfl
      | ok x => cases Args.read fs values <;> rfl

end Args

namespace StoredRecord

variable {op : Operation (Param Float)} {r : StoredRecord}

/-- The records in their form are those of operations. -/
theorem isNormal_iff : r.IsNormal ↔ ∃ op : Operation (Param Float), op.record = r := by
  obtain ⟨k, es⟩ := r
  constructor
  · intro h
    obtain ⟨args, hargs⟩ := Args.forall₂_iff_stored.mp h
    exact ⟨⟨k, args⟩, congrArg (mk k) hargs⟩
  · rintro ⟨op, hop⟩
    cases hop
    exact Args.forall₂_iff_stored.mpr ⟨op.args, rfl⟩

theorem record_injective {a b : Operation (Param Float)} (h : a.record = b.record) : a = b := by
  obtain ⟨k, as⟩ := a
  obtain ⟨k', bs⟩ := b
  obtain ⟨rfl, hentries⟩ := StoredRecord.mk.inj h
  have hread := Args.read_stored as
  rw [hentries, Args.read_stored] at hread
  exact congrArg (Operation.mk k) (Except.ok.inj hread).symm

end StoredRecord

/-! ## Binding -/

section

variable {named : List (String × Datum)} {fields : List String} {row values : List Datum}

theorem length_of_bindFields (h : bindFields named fields row = .ok values) :
    values.length = fields.length := by
  induction fields generalizing row values with
  | nil =>
    cases row with
    | nil =>
      cases h
      rfl
    | cons x xs => cases h
  | cons f fs ih =>
    cases row with
    | nil =>
      rw [bindFields] at h
      cases hlookup : named.lookup f with
      | none =>
        rw [hlookup] at h
        cases h
      | some x =>
        rw [hlookup] at h
        obtain ⟨rest, hrest, h⟩ := bind_eq_ok h
        cases h
        rw [List.length_cons, List.length_cons, ih hrest]
    | cons x xs =>
      rw [bindFields] at h
      split at h
      · cases h
      · obtain ⟨rest, hrest, h⟩ := bind_eq_ok h
        cases h
        rw [List.length_cons, List.length_cons, ih hrest]

theorem length_of_bindArguments (h : bindArguments fields row named = .ok values) :
    values.length = fields.length := by
  obtain ⟨vs, hvs, h⟩ := bind_eq_ok h
  split at h
  · cases h
  · cases h
    exact length_of_bindFields hvs

/-- As many values in a row as fields are bound as they stand. -/
theorem bindArguments_row (h : values.length = fields.length) :
    bindArguments fields values [] = .ok values := by
  have hrow : bindFields [] fields values = .ok values := by
    induction fields generalizing values with
    | nil =>
      rw [List.eq_nil_of_length_eq_zero h]
      rfl
    | cons f fs ih =>
      cases values with
      | nil => cases h
      | cons x xs =>
        rw [bindFields, ih (Nat.succ.inj h)]
        rfl
  unfold bindArguments
  rw [hrow]
  rfl

/-- One value for each field under its name is bound to the field. -/
theorem bindArguments_named (hnodup : fields.Nodup) (h : values.length = fields.length) :
    bindArguments fields [] (fields.zip values) = .ok values := by
  have hfst : (fields.zip values).map Prod.fst = fields := List.map_fst_zip (by omega)
  have hlookup : ∀ e ∈ fields.zip values, (fields.zip values).lookup e.1 = some e.2 :=
    fun e he => Datum.lookup_of_mem (by rwa [hfst]) he
  have hrow : ∀ (fs : List String) (ds : List Datum), ds.length = fs.length →
      (∀ e ∈ fs.zip ds, (fields.zip values).lookup e.1 = some e.2) →
      bindFields (fields.zip values) fs [] = .ok ds := by
    intro fs
    induction fs with
    | nil =>
      intro ds hds _
      rw [List.eq_nil_of_length_eq_zero hds]
      rfl
    | cons f fs ih =>
      intro ds hds hfound
      cases ds with
      | nil => cases hds
      | cons d ds =>
        rw [List.zip_cons_cons] at hfound
        rw [bindFields, hfound (f, d) List.mem_cons_self]
        simp only [ih ds (Nat.succ.inj hds) fun e he => hfound e (List.mem_cons_of_mem _ he)]
        rfl
  have hknown : (fields.zip values).find? (fun e => !fields.contains e.1) = none := by
    rw [List.find?_eq_none]
    intro e he
    have hmem : e.1 ∈ fields := hfst ▸ List.mem_map_of_mem (f := Prod.fst) he
    simp [hmem]
  unfold bindArguments
  simp only [hrow fields values h hlookup, hknown]
  rfl

end

namespace StoredRecord

variable {op : Operation (Param Float)} {r : StoredRecord}

/-! ## What the constructor makes -/

theorem ofValues_eq (k : Kind) (row : List Datum) (named : List (String × Datum)) :
    ofValues k row named = (Operation.ofValues k row named).map Operation.record := by
  unfold ofValues Operation.ofValues
  simp only
  cases hbound : bindArguments (k.fields.map (·.name)) row named with
  | error fault => rfl
  | ok values =>
    have hlength : values.length = k.fields.length := by
      rw [length_of_bindArguments hbound, List.length_map]
    simp only
    rw [Args.mapM_normalize hlength]
    cases Args.read k.fields values <;> rfl

/-- The constructor of the kind makes an operation again from its stored values. -/
theorem ofValues_values (op : Operation (Param Float)) :
    Operation.ofValues op.kind op.record.values [] = .ok op := by
  have hlength : op.record.values.length = (op.kind.fields.map (·.name)).length := by
    rw [← op.args.map_fst_stored, List.length_map]
    exact List.length_map Prod.snd
  have hread : Args.read op.kind.fields op.record.values = .ok op.args := op.args.read_stored
  unfold Operation.ofValues
  simp only
  rw [bindArguments_row hlength]
  simp only
  rw [hread]
  rfl

theorem ofContent_eq (k : Kind) (content : Datum) :
    ofContent k content = (Operation.ofContent k content).map Operation.record := by
  have htyped : Operation.ofContent k content = (k.fields.mapM (Field.given content) >>= fun ds =>
      Args.read k.fields ds >>= fun args => .ok ⟨k, args⟩) := rfl
  unfold ofContent
  rw [htyped, mapM_pair]
  cases hvalues : k.fields.mapM (Field.given content) with
  | error fault => rfl
  | ok ds =>
    have hlength : ds.length = (k.fields.map (·.name)).length := by
      rw [List.length_map, (mapM_eq_ok_iff.mp hvalues).length_eq]
    show ofValues k [] ((k.fields.map (·.name)).zip ds) = _
    rw [ofValues_eq]
    unfold Operation.ofValues
    simp only
    rw [bindArguments_named k.nodup_names hlength]
    rfl

theorem ofRecord_eq (family : String) (d : Datum) :
    ofRecord family d = (Operation.ofRecord family d).map Operation.record := by
  unfold ofRecord Operation.ofRecord
  cases d.items with
  | error fault => rfl
  | ok items =>
    show (if items.length ≠ 1 then _ else _) = (if items.length ≠ 1 then _ else _ : Except _ _).map _
    split
    · rfl
    · rcases d with - | - | - | - | - | - | - | - | - | - |
        (- | ⟨⟨name, content⟩, - | ⟨-, -⟩⟩) | - | - | - | - | -
      case mapping.cons.nil =>
        simp only
        cases name.keyText?.bind Kind.ofName? with
        | none => rfl
        | some k =>
          simp only
          cases k.isCalled family with
          | false => rfl
          | true => exact ofContent_eq k content
      all_goals rfl

/-! ## What a change of some fields comes to -/

/-- A change of stored values that does what a change of qubits and parameters does. -/
structure Follows (change : FieldKind → Option (Datum → Except (Fault Float) Datum))
    (onQubit : ℕ → Except (Fault Float) ℕ)
    (onParameter : Param Float → Except (Fault Float) (Param Float)) : Prop where
  kept : ∀ (k : FieldKind) (x : k.Carrier (Param Float)), change k = none →
    k.traverse onQubit onParameter x = .ok x
  changed : ∀ (k : FieldKind) (x : k.Carrier (Param Float)) (g : Datum → Except (Fault Float) Datum),
    change k = some g → g (k.stored x) = (k.traverse onQubit onParameter x).map k.stored

theorem mapM_single {A : Type} {f : A → Datum} {g : Datum → Except (Fault Float) Datum}
    (change : A → Except (Fault Float) A) (h : ∀ a, g (f a) = (change a).map f) (as : List A) :
    (as.map f).mapM g = (as.mapM change).map (List.map f) := by
  rw [← mapM_map, List.mapM_map]
  exact congrArg as.mapM (funext h)

/-- Changes of parameters leave all other values. -/
theorem follows_onParameters (change : Param Float → Except (Fault Float) (Param Float)) :
    Follows (onParameters change) pure change where
  kept k x h := by
    cases k with
    | parameter | parameters => cases h
    | qubit | flag | name => rfl
    | qubits => exact mapM_pure x
  changed k x g h := by
    cases k with
    | qubit | qubits | flag | name => cases h
    | parameter =>
      cases h
      rfl
    | parameters =>
      cases h
      show ((x.map Datum.parameter).mapM (onParameters.single change) >>= fun ds =>
        Except.ok (Datum.tuple ds)) = (x.mapM change).map (FieldKind.stored .parameters)
      rw [mapM_single change fun p => rfl]
      cases x.mapM change <;> rfl

/-- Changes of qubits leave all other values. -/
theorem follows_onQubits (rename : ℕ → Except (Fault Float) ℕ) :
    Follows (onQubits rename) rename pure where
  kept k x h := by
    cases k with
    | qubit | qubits => cases h
    | parameter | flag | name => rfl
    | parameters => exact mapM_pure x
  changed k x g h := by
    cases k with
    | parameter | parameters | flag | name => cases h
    | qubit =>
      cases h
      rfl
    | qubits =>
      cases h
      show ((x.map Datum.ofQubit).mapM (onQubits.single rename) >>= fun ds =>
        Except.ok (Datum.tuple ds)) = (x.mapM rename).map (FieldKind.stored .qubits)
      rw [mapM_single rename fun q => rfl]
      cases x.mapM rename <;> rfl

end StoredRecord

namespace Args

variable {fs : List Field} {change : FieldKind → Option (Datum → Except (Fault Float) Datum)}
  {onQubit : ℕ → Except (Fault Float) ℕ}
  {onParameter : Param Float → Except (Fault Float) (Param Float)} {r : StoredRecord}

/-- The names and stored values of the fields whose sort is changed. -/
def changed (change : FieldKind → Option (Datum → Except (Fault Float) Datum)) :
    (fs : List Field) → Args (Param Float) fs → List (String × Datum)
  | [], _ => []
  | f :: fs, (x, rest) =>
    if (change f.kind).isSome then (f.name, f.kind.stored x) :: changed change fs rest
    else changed change fs rest

theorem name_mem_of_changed {args : Args (Param Float) fs} {e : String × Datum}
    (h : e ∈ args.changed change fs) : e.1 ∈ fs.map (·.name) := by
  induction fs with
  | nil => cases h
  | cons f fs ih =>
    obtain ⟨x, rest⟩ := args
    rw [changed] at h
    rw [List.map_cons]
    split at h
    · rcases List.mem_cons.mp h with rfl | hmem
      · exact List.mem_cons_self
      · exact List.mem_cons_of_mem _ (ih hmem)
    · exact List.mem_cons_of_mem _ (ih h)

/-- The changed values are the values of the changed fields, in the same order and with the same
faults. -/
theorem changes_eq (hfollows : StoredRecord.Follows change onQubit onParameter)
    (args : Args (Param Float) fs)
    (hlookup : ∀ e ∈ args.stored fs, r.entries.lookup e.1 = some e.2) :
    r.changes change fs =
      (args.traverse onQubit onParameter fs).map (changed change fs) := by
  induction fs with
  | nil => rfl
  | cons f fs ih =>
    obtain ⟨x, rest⟩ := args
    have hrest := ih rest fun e he => hlookup e (List.mem_cons_of_mem _ he)
    have hvalue : r.value f.name = .ok (f.kind.stored x) := by
      unfold StoredRecord.value
      rw [hlookup (f.name, f.kind.stored x) List.mem_cons_self]
    rw [StoredRecord.changes, Args.traverse]
    cases hchange : change f.kind with
    | none =>
      rw [hfollows.kept f.kind x hchange]
      simp only
      rw [hrest]
      show _ = (rest.traverse onQubit onParameter fs >>= fun rest' => .ok (x, rest')).map _
      cases rest.traverse onQubit onParameter fs with
      | error fault => rfl
      | ok rest' =>
        show Except.ok _ = Except.ok (changed change (f :: fs) (x, rest'))
        rw [changed, hchange]
        rfl
    | some g =>
      simp only
      rw [hvalue, hrest]
      show (g (f.kind.stored x) >>= _) = _
      rw [hfollows.changed f.kind x g hchange]
      cases f.kind.traverse onQubit onParameter x with
      | error fault => rfl
      | ok x' =>
        show ((rest.traverse onQubit onParameter fs).map _ >>= _) =
          (rest.traverse onQubit onParameter fs >>= fun rest' => .ok (x', rest')).map _
        cases rest.traverse onQubit onParameter fs with
        | error fault => rfl
        | ok rest' =>
          show Except.ok _ = Except.ok (changed change (f :: fs) (x', rest'))
          rw [changed, hchange]
          rfl

theorem lookup_eq_none {es : List (String × Datum)} {name : String}
    (h : name ∉ es.map Prod.fst) : es.lookup name = none := by
  rw [List.lookup_eq_none_iff]
  intro e he
  rw [bne_iff_ne]
  rintro rfl
  exact h (List.mem_map_of_mem he)

/-- Stored values with the changed ones in their places are those of the changed operation. -/
theorem stored_of_traverse (hfollows : StoredRecord.Follows change onQubit onParameter)
    (hnodup : (fs.map (·.name)).Nodup) {args args' : Args (Param Float) fs}
    (h : args.traverse onQubit onParameter fs = .ok args') :
    ((args.stored fs).map fun e => (e.1, ((args'.changed change fs).lookup e.1).getD e.2)) =
      args'.stored fs := by
  induction fs with
  | nil => rfl
  | cons f fs ih =>
    obtain ⟨x, rest⟩ := args
    obtain ⟨x', rest'⟩ := args'
    rw [List.map_cons, List.nodup_cons] at hnodup
    rw [Args.traverse] at h
    obtain ⟨y, hhead, h⟩ := bind_eq_ok h
    obtain ⟨ys, htail, h⟩ := bind_eq_ok h
    cases h
    have hrest := ih hnodup.2 htail
    rw [stored, stored, List.map_cons, changed]
    cases hchange : change f.kind with
    | none =>
      have hsame : x = x' := Except.ok.inj ((hfollows.kept f.kind x hchange).symm.trans hhead)
      have hother : (rest'.changed change fs).lookup f.name = none := lookup_eq_none fun hmem => by
        obtain ⟨e, he, hname⟩ := List.mem_map.mp hmem
        exact hnodup.1 (hname ▸ name_mem_of_changed he)
      have hnone : ¬ (none : Option (Datum → Except (Fault Float) Datum)).isSome = true :=
        Bool.false_ne_true
      rw [if_neg hnone, hrest, hother, hsame]
      rfl
    | some g =>
      have hbehind : ∀ e ∈ rest.stored fs,
          ((f.name, f.kind.stored x') :: rest'.changed change fs).lookup e.1 =
            (rest'.changed change fs).lookup e.1 := by
        intro e he
        have hne : ¬ e.1 = f.name := by
          intro hname
          have hmem := List.mem_map_of_mem (f := Prod.fst) he
          rw [map_fst_stored, hname] at hmem
          exact hnodup.1 hmem
        rw [List.lookup_cons, beq_eq_false_iff_ne.mpr hne]
      have hsome : (some g).isSome = true := rfl
      rw [if_pos hsome, List.lookup_cons, beq_self_eq_true]
      refine congrArg₂ List.cons rfl ?_
      rw [← hrest]
      exact List.map_congr_left fun e he => by rw [hbehind e he]

end Args

namespace StoredRecord

variable {op : Operation (Param Float)}

theorem lookup_stored (op : Operation (Param Float)) :
    ∀ e ∈ op.record.entries, op.record.entries.lookup e.1 = some e.2 := by
  have hnodup : (op.record.entries.map Prod.fst).Nodup := by
    rw [show op.record.entries.map Prod.fst = _ from op.args.map_fst_stored]
    exact op.kind.nodup_names
  exact fun e he => Datum.lookup_of_mem hnodup he

/-- A copy gets no fields that the record does not have. -/
theorem replace_entries {changes : List (String × Datum)}
    (h : ∀ e ∈ changes, e.1 ∈ op.kind.fields.map (·.name)) :
    (op.record.replace changes).entries =
      op.record.entries.map fun e => (e.1, (changes.lookup e.1).getD e.2) := by
  have hnone : (changes.filter fun e => (op.record.entries.lookup e.1).isNone) = [] := by
    rw [List.filter_eq_nil_iff]
    intro e he hnone
    have hmem := h e he
    rw [← op.args.map_fst_stored] at hmem
    obtain ⟨e', he', hname⟩ := List.mem_map.mp hmem
    rw [← hname, lookup_stored op e' he'] at hnone
    cases hnone
  show _ ++ _ = _
  rw [hnone, List.append_nil]

/-- A copy with changed fields is the record of the operation with changed fields. -/
theorem replace_changes {change : FieldKind → Option (Datum → Except (Fault Float) Datum)}
    {onQubit : ℕ → Except (Fault Float) ℕ}
    {onParameter : Param Float → Except (Fault Float) (Param Float)}
    (hfollows : Follows change onQubit onParameter) (op : Operation (Param Float)) :
    (op.record.changes change op.kind.fields).map op.record.replace =
      (op.args.traverse onQubit onParameter op.kind.fields).map fun args =>
        Operation.record ⟨op.kind, args⟩ := by
  rw [op.args.changes_eq hfollows (lookup_stored op)]
  cases h : op.args.traverse onQubit onParameter op.kind.fields with
  | error fault => rfl
  | ok args' =>
    have hnames : ∀ e ∈ args'.changed change op.kind.fields, e.1 ∈ op.kind.fields.map (·.name) :=
      fun e he => Args.name_mem_of_changed he
    have hentries := replace_entries hnames
    have hstored := Args.stored_of_traverse hfollows op.kind.nodup_names h
    exact congrArg (fun es => Except.ok (mk op.kind es)) (hentries.trans hstored)

theorem substituteWith_record (op : Operation (Param Float)) (table : Datum) :
    op.record.substituteWith table = (op.substituteWith table).map Operation.record := by
  unfold substituteWith Operation.substituteWith
  cases Bindings.ofDatum table with
  | error fault => rfl
  | ok b =>
    have hcopy := replace_changes (follows_onParameters (Param.substitute b.evaluate)) op
    show (op.record.changes _ op.kind.fields).map op.record.replace =
      (op.substitute b.evaluate).map Operation.record
    rw [hcopy]
    unfold Operation.substitute Operation.mapParameters
    cases op.args.traverse (m := Except (Fault Float)) pure (Param.substitute b.evaluate)
      op.kind.fields <;> rfl

theorem remapWith_record (op : Operation (Param Float)) (mapping : Datum) :
    op.record.remapWith mapping = (op.remapWith mapping).map Operation.record := by
  have hcopy := replace_changes (follows_onQubits mapping.rename) op
  show (op.record.changes _ op.kind.fields).map op.record.replace =
    (op.remap mapping.rename).map Operation.record
  rw [hcopy]
  unfold Operation.remap
  cases op.args.traverse (m := Except (Fault Float)) mapping.rename pure op.kind.fields <;> rfl

end StoredRecord

/-! ## Powers -/

namespace Args

variable {fs : List Field}

theorem exists_stored_of_mem {f : Field} (hf : f ∈ fs) (args : Args (Param Float) fs) :
    ∃ x, (f.name, f.kind.stored x) ∈ args.stored fs := by
  induction fs with
  | nil => cases hf
  | cons g fs ih =>
    obtain ⟨y, rest⟩ := args
    rcases List.mem_cons.mp hf with rfl | hmem
    · exact ⟨y, List.mem_cons_self⟩
    · obtain ⟨x, hx⟩ := ih hmem rest
      exact ⟨x, List.mem_cons_of_mem _ hx⟩

/-- A change of the parameter of a name changes the one stored value of the name. -/
theorem stored_onNamed {name : String} {p : Param Float} (change : Param Float → Param Float)
    (args : Args (Param Float) fs)
    (hentry : ∀ e ∈ args.stored fs, e.1 = name → e.2 = .parameter p) :
    (args.onNamed name change fs).stored fs = (args.stored fs).map fun e =>
      (e.1, ([(name, Datum.parameter (change p))].lookup e.1).getD e.2) := by
  induction fs with
  | nil => rfl
  | cons f fs ih =>
    obtain ⟨x, rest⟩ := args
    have hrest := ih rest fun e he => hentry e (List.mem_cons_of_mem _ he)
    have hhead := hentry (f.name, f.kind.stored x) List.mem_cons_self
    obtain ⟨n, k⟩ := f
    show _ = (n, ([(name, Datum.parameter (change p))].lookup n).getD (k.stored x)) ::
      (rest.stored fs).map _
    rw [← hrest, List.lookup_cons]
    by_cases hname : n = name
    · have hvalue := hhead hname
      cases k with
      | parameter =>
        obtain rfl : x = p := Datum.parameter.inj hvalue
        rw [onNamed, if_pos hname, beq_iff_eq.mpr hname]
        rfl
      | qubit | qubits | parameters | flag | name => cases hvalue
    · rw [beq_eq_false_iff_ne.mpr hname]
      cases k with
      | parameter =>
        rw [onNamed, if_neg hname]
        rfl
      | qubit | qubits | parameters | flag | name => rfl

end Args

/-- The angle of a rotation is a parameter. -/
theorem Kind.theta_mem_fields {k : Kind} (h : k.isRotation = true) :
    ⟨"theta", .parameter⟩ ∈ k.fields := by
  have hall : ∀ k ∈ Kind.all, k.isRotation = true → ⟨"theta", .parameter⟩ ∈ k.fields := by
    decide +kernel
  exact hall k k.mem_all h

namespace StoredRecord

theorem powerBy_record (op : Operation (Param Float)) (exponent : Datum) :
    op.record.powerBy exponent = (op.powerBy exponent).map Operation.record := by
  unfold powerBy Operation.powerBy Operation.power
  show (if op.kind.isRotation = true then _ else _) = _
  cases hrotation : op.kind.isRotation with
  | false => rfl
  | true =>
    obtain ⟨p, hp⟩ := Args.exists_stored_of_mem (Kind.theta_mem_fields hrotation) op.args
    have hvalue : op.record.value "theta" = .ok (.parameter p) := by
      unfold value
      rw [lookup_stored op _ hp]
      rfl
    have hentry : ∀ e ∈ op.record.entries, e.1 = "theta" → e.2 = .parameter p := by
      intro e he hname
      have hlookup := lookup_stored op e he
      rw [hname, lookup_stored op _ hp] at hlookup
      exact (Option.some.inj hlookup).symm
    cases exponent.toParam with
    | error fault => rfl
    | ok e =>
      have hnames : ∀ c ∈ [("theta", Datum.parameter (e.mul p))],
          c.1 ∈ op.kind.fields.map (·.name) := by
        intro c hc
        rw [List.mem_singleton.mp hc]
        exact List.mem_map.mpr ⟨_, Kind.theta_mem_fields hrotation, rfl⟩
      have hstored := op.args.stored_onNamed (fun theta => e.mul theta) hentry
      show (op.record.value "theta" >>= fun d => d.operand >>= fun theta =>
        .ok (op.record.replace [("theta", .parameter (e.mul theta))])) = _
      rw [hvalue]
      exact congrArg (fun es => Except.ok (mk op.kind es))
        ((replace_entries hnames).trans hstored.symm)

/-! ## Records that are reached -/

/-- The records that the constructors and the reading of written records make, those of products,
of general forms and of members of circuits, and the unchecked copies of all these. -/
inductive Reachable : StoredRecord → Prop
  | constructed {k : Kind} {row : List Datum} {named : List (String × Datum)} {r : StoredRecord} :
      ofValues k row named = .ok r → Reachable r
  | decoded {family : String} {d : Datum} {r : StoredRecord} :
      ofRecord family d = .ok r → Reachable r
  | substituted {r r' : StoredRecord} {table : Datum} :
      Reachable r → r.substituteWith table = .ok r' → Reachable r'
  | renamed {r r' : StoredRecord} {mapping : Datum} :
      Reachable r → r.remapWith mapping = .ok r' → Reachable r'
  | raised {r r' : StoredRecord} {exponent : Datum} :
      Reachable r → r.powerBy exponent = .ok r' → Reachable r'
  | product {a b c : Operation (Param Float)} :
      Reachable a.record → Reachable b.record → a.multiply b = .ok c → Reachable c.record
  | general {a c : Operation (Param Float)} :
      Reachable a.record → a.general = .ok c → Reachable c.record
  | member {a c : Operation (Param Float)} {gates : Circuit Float} :
      Reachable a.record → a.expanded = .ok gates → c ∈ gates → Reachable c.record

theorem exists_of_map_eq_ok {m : Except (Fault Float) (Operation (Param Float))}
    {r : StoredRecord} (h : m.map Operation.record = .ok r) :
    ∃ op : Operation (Param Float), op.record = r := by
  cases m with
  | error fault => cases h
  | ok op => exact ⟨op, Except.ok.inj h⟩

/-- Every record that is reached has just the fields of its kind in their form. -/
theorem Reachable.isNormal {r : StoredRecord} (h : Reachable r) : r.IsNormal := by
  rw [isNormal_iff]
  induction h with
  | constructed hmade => exact exists_of_map_eq_ok ((ofValues_eq _ _ _).symm.trans hmade)
  | decoded hread => exact exists_of_map_eq_ok ((ofRecord_eq _ _).symm.trans hread)
  | substituted _ hcopy ih =>
    obtain ⟨op, rfl⟩ := ih
    exact exists_of_map_eq_ok ((substituteWith_record op _).symm.trans hcopy)
  | renamed _ hcopy ih =>
    obtain ⟨op, rfl⟩ := ih
    exact exists_of_map_eq_ok ((remapWith_record op _).symm.trans hcopy)
  | raised _ hcopy ih =>
    obtain ⟨op, rfl⟩ := ih
    exact exists_of_map_eq_ok ((powerBy_record op _).symm.trans hcopy)
  | product => exact ⟨_, rfl⟩
  | general => exact ⟨_, rfl⟩
  | member => exact ⟨_, rfl⟩

/-- An operation is equal to itself as a value, and has one hash, unless a literal of it is
undefined. -/
theorem equal_operation_iff {op : Operation (Param Float)} :
    (Datum.operation op).equal (.operation op) = .ok true ↔
      ∀ x, .literal x ∈ op.parameters → x.isNaN = false := by
  have hequal : (Datum.operation op).equal (.operation op) = .ok (op.equal op) := by
    simp [Datum.equal, Datum.equalPlain]
  rw [hequal, Except.ok.injEq, Operation.equal_self_iff]

theorem sameHash_operation {op : Operation (Param Float)}
    (h : ∀ x, .literal x ∈ op.parameters → x.isNaN = false) :
    (Datum.operation op).sameHash (.operation op) = .ok true := by
  have hkey : (Datum.operation op).hashKey = .ok (.ofOperation op) := rfl
  rw [Datum.sameHash_of_hashKey hkey hkey,
    HashKey.same_ofOperation (Operation.equal_self_iff.mpr h)]

/-- A record that is reached has just the fields of its kind, each in its form. It stores an
operation, and the constructor of the kind makes of the stored values an operation with the same
record and the same text. It is equal to the operation just when no literal is undefined, and then
has its hash. -/
theorem Reachable.reproduced {r : StoredRecord} (h : Reachable r) :
    r.entries.map Prod.fst = r.kind.fields.map (·.name) ∧
    (∀ f ∈ r.kind.fields, ∃ d, r.value f.name = .ok d ∧ f.kind.IsNormal d) ∧
    ofValues r.kind r.values [] = .ok r ∧
    (∃ op : Operation (Param Float), op.record = r) ∧
    ∀ op : Operation (Param Float), op.record = r →
      ∃ copy, Operation.ofValues r.kind r.values [] = .ok copy ∧
        copy.record = r ∧ copy.text = op.text ∧
        ((Datum.operation op).equal (.operation copy) = .ok true ↔
          ∀ x, .literal x ∈ op.parameters → x.isNaN = false) ∧
        ((∀ x, .literal x ∈ op.parameters → x.isNaN = false) →
          (Datum.operation op).sameHash (.operation copy) = .ok true) := by
  obtain ⟨op, rfl⟩ := isNormal_iff.mp h.isNormal
  refine ⟨op.args.map_fst_stored, fun f hf => ?_, ?_, ⟨op, rfl⟩, fun op' hop' => ?_⟩
  · obtain ⟨x, hx⟩ := Args.exists_stored_of_mem hf op.args
    refine ⟨f.kind.stored x, ?_, FieldKind.isNormal_iff.mpr ⟨x, rfl⟩⟩
    unfold value
    rw [lookup_stored op _ hx]
  · exact (ofValues_eq _ _ _).trans (congrArg (Except.map Operation.record) (ofValues_values op))
  · obtain rfl := record_injective hop'
    exact ⟨op', ofValues_values op', rfl, rfl, equal_operation_iff, sameHash_operation⟩

theorem reproduced_of_raised_rotation :
    let rotation (qubit : ℤ) (theta : String) : StoredRecord := ⟨.single .rotateZ,
      [("qubit", .integer qubit), ("theta", .parameter (.expression theta))]⟩
    ofValues (.single .rotateZ) [.boolean true] [("theta", .text "t")] = .ok (rotation 1 "t") ∧
    (rotation 1 "t").remapWith (.mapping [(.integer 1, .integer 3)]) = .ok (rotation 3 "t") ∧
    (rotation 3 "t").powerBy (.text "n") = .ok (rotation 3 "(n * t)") ∧
    Reachable (rotation 3 "(n * t)") ∧
    ofValues (.single .rotateZ) [.integer 3, .parameter (.expression "(n * t)")] [] =
      .ok (rotation 3 "(n * t)") := by
  intro rotation
  have hmade : ofValues (.single .rotateZ) [.boolean true] [("theta", .text "t")] =
      .ok (rotation 1 "t") := rfl
  have hrenamed : (rotation 1 "t").remapWith (.mapping [(.integer 1, .integer 3)]) =
      .ok (rotation 3 "t") := by with_unfolding_all rfl
  have hraised : (rotation 3 "t").powerBy (.text "n") = .ok (rotation 3 "(n * t)") := by
    with_unfolding_all rfl
  have hreached : Reachable (rotation 3 "(n * t)") :=
    .raised (.renamed (.constructed hmade) hrenamed) hraised
  exact ⟨hmade, hrenamed, hraised, hreached, hreached.reproduced.2.2.1⟩

/-- The angle that is not a number is equal to nothing, so the operation that is made again of its
values is not equal to it. -/
theorem not_reproduced_of_undefined_angle :
    let op : Operation (Param Float) := ⟨.single .rotateX, 0, .literal (0.0 / 0.0), ()⟩
    Reachable op.record ∧ Operation.ofValues op.kind op.record.values [] = .ok op ∧
      (Datum.operation op).equal (.operation op) = .ok false := by
  intro op
  have hmade : Operation.ofValues op.kind op.record.values [] = .ok op := ofValues_values op
  have hrecord : ofValues op.kind op.record.values [] = .ok op.record := by
    rw [ofValues_eq, hmade]
    rfl
  refine ⟨.constructed hrecord, hmade, ?_⟩
  have hequal : op.equal op = false := by decide +kernel
  simp [Datum.equal, Datum.equalPlain, hequal]

end StoredRecord

end QuantumGates
