-- Records of operations. A record is read back as the operation that it was written from, by each
-- name that the kind of the operation has, and every other name refuses it. Two records are equal
-- just when the operations are. What any record is read as is read back from its own record.
import QuantumGates.Datum.Record
import QuantumGates.Proofs.Datum.Values
import QuantumGates.Proofs.Gate.Fields

namespace QuantumGates

/-! ## Names of kinds and families -/

theorem Kind.mem_all (k : Kind) : k ∈ Kind.all := by
  cases k with
  | single k => cases k <;> decide
  | two k => cases k <;> decide
  | three k => cases k <;> decide
  | four k => cases k <;> decide
  | register k => cases k <;> decide
  | call => decide

/-- A kind is found by its name. -/
theorem Kind.ofName?_name (k : Kind) : Kind.ofName? k.name = some k := by
  have hall : ∀ k ∈ Kind.all, Kind.ofName? k.name = some k := by decide +kernel
  exact hall k k.mem_all

theorem Kind.name_inj {k k' : Kind} : k.name = k'.name ↔ k = k' := by
  refine ⟨fun h => ?_, congrArg _⟩
  rw [← Option.some.injEq, ← ofName?_name, h, ofName?_name]

theorem Family.ofName?_name (f : Family) : Family.ofName? f.name = some f := by
  cases f <;> decide

/-- No kind has the name of a family. -/
theorem Family.ofName?_kindName (k : Kind) : Family.ofName? k.name = none := by
  have hall : ∀ k ∈ Kind.all, Family.ofName? k.name = none := by decide +kernel
  exact hall k k.mem_all

theorem Kind.isCalled_name (k k' : Kind) : k.isCalled k'.name = decide (k' = k) := by
  unfold isCalled
  rw [Family.ofName?_kindName, Bool.eq_iff_iff, decide_eq_true_eq, ← name_inj]
  simp [eq_comm (a := k'.name)]

theorem Kind.isCalled_family (k : Kind) (f : Family) : k.isCalled f.name = k.isIn f := by
  have hname : ¬ k.name = f.name := by
    intro h
    have hnone := Family.ofName?_kindName k
    rw [h, Family.ofName?_name] at hnone
    cases hnone
  unfold isCalled
  rw [Family.ofName?_name, beq_eq_false_iff_ne.mpr hname]
  rfl

/-- The fields of a kind have different names. -/
theorem Kind.nodup_names (k : Kind) : (k.fields.map (·.name)).Nodup := by
  have hall : ∀ k ∈ Kind.all, (k.fields.map (·.name)).Nodup := by decide +kernel
  exact hall k k.mem_all

/-! ## Parameters -/

theorem Param.ofRecord_toRecord (p : Param Float) : Param.ofRecord p.toRecord = .ok p := by
  cases p <;> rfl

theorem Param.fromRecord_toRecord (p : Param Float) :
    p.toRecord.fromRecord = .ok (.parameter p) := by
  have hmap : p.toRecord.fromRecord = (Param.ofRecord p.toRecord).map .parameter := by
    cases p <;> rfl
  rw [hmap, ofRecord_toRecord]
  rfl

/-- Records of parameters are equal just when the parameters are. -/
theorem Param.equal_toRecord (p q : Param Float) :
    p.toRecord.equal q.toRecord = .ok (p.equal q) := by
  cases p with
  | literal x =>
    cases q with
    | literal y => exact Datum.equal_singleton _ fun _ => Datum.equal_number x y
    | expression t => exact Datum.equal_singleton false fun h => absurd h (by decide)
  | expression s =>
    cases q with
    | literal y => exact Datum.equal_singleton false fun h => absurd h (by decide)
    | expression t => exact Datum.equal_singleton _ fun _ => Datum.equal_text s t

/-! ## Fields -/

/-- The value of a field as its record gives it to the operation. -/
def FieldKind.given : (k : FieldKind) → k.Carrier (Param Float) → Datum
  | .qubit, q => .integer q
  | .qubits, qs => .list (qs.map fun q => .integer (Int.ofNat q))
  | .parameter, p => .parameter p
  | .parameters, ps => .list (ps.map .parameter)
  | .flag, b => .boolean b
  | .name, s => .text s

theorem FieldKind.fromRecord_tagged (k : FieldKind) (x : k.Carrier (Param Float)) :
    k.fromRecord (k.tagged x).toDatum = .ok (k.given x) := by
  cases k with
  | qubit | qubits | flag | name => rfl
  | parameter => exact Param.fromRecord_toRecord x
  | parameters =>
    have hitems : (x.map Param.toRecord).mapM Datum.fromRecord = .ok (x.map .parameter) := by
      rw [mapM_eq_ok_iff, List.forall₂_map_left_iff, List.forall₂_map_right_iff, List.forall₂_same]
      exact fun p _ => p.fromRecord_toRecord
    show ((x.map Param.toRecord).mapM Datum.fromRecord >>= fun ds => .ok (Datum.list ds)) = _
    rw [hitems]
    rfl

theorem FieldKind.read_given (k : FieldKind) (x : k.Carrier (Param Float)) :
    k.read (k.given x) = .ok x := by
  cases k with
  | qubit => exact Datum.qubit_natCast x
  | qubits =>
    have hitems : (x.map fun q => Datum.integer (Int.ofNat q)).mapM Datum.qubit = .ok x := by
      rw [mapM_eq_ok_iff, List.forall₂_map_left_iff, List.forall₂_same]
      exact fun q _ => Datum.qubit_natCast q
    exact hitems
  | parameters =>
    have hitems : (x.map Datum.parameter).mapM Datum.toParam = .ok x := by
      rw [mapM_eq_ok_iff, List.forall₂_map_left_iff, List.forall₂_same]
      exact fun p _ => rfl
    exact hitems
  | parameter | flag | name => rfl

theorem FieldValue.agree_beq (xs ys : List ℕ) : FieldValue.agree (· == ·) xs ys = (xs == ys) := by
  induction xs generalizing ys with
  | nil => cases ys <;> rfl
  | cons x xs ih =>
    cases ys with
    | nil => rfl
    | cons y ys => rw [FieldValue.agree, ih, List.cons_beq_cons]

/-- Values of the same field are equal in records just when they are equal. -/
theorem FieldKind.equal_tagged (k : FieldKind) (x y : k.Carrier (Param Float)) :
    (k.tagged x).toDatum.equal (k.tagged y).toDatum =
      .ok ((k.tagged x).equalBy Param.equal (k.tagged y)) := by
  have hqubit (p q : ℕ) : (Datum.integer p).equal (.integer q) = .ok (p == q) := by
    simp [Datum.equal_integer]
  cases k with
  | qubit => exact hqubit x y
  | qubits =>
    exact (Datum.equal_list hqubit x y).trans (congrArg Except.ok (FieldValue.agree_beq x y))
  | parameter => exact Param.equal_toRecord x y
  | parameters => exact Datum.equal_list Param.equal_toRecord x y
  | flag => exact Datum.equal_boolean x y
  | name => exact Datum.equal_text x y

/-! ## Fields of an operation -/

namespace Args

variable {fs : List Field}

/-- The values of the fields as their records give them to the operation. -/
def given : (fs : List Field) → Args (Param Float) fs → List Datum
  | [], _ => []
  | f :: fs, (x, rest) => f.kind.given x :: given fs rest

theorem read_given (args : Args (Param Float) fs) : Args.read fs (given fs args) = .ok args := by
  induction fs with
  | nil => rfl
  | cons f fs ih =>
    obtain ⟨x, rest⟩ := args
    rw [given, Args.read]
    simp only [List.headD_cons, List.tail_cons, FieldKind.read_given, ih]
    rfl

theorem length_values {P : Type} (args : Args P fs) : (args.values fs).length = fs.length := by
  induction fs with
  | nil => rfl
  | cons f fs ih =>
    obtain ⟨x, rest⟩ := args
    rw [values, List.length_cons, List.length_cons, ih]

/-- The names and values of fields. -/
abbrev entries {P : Type} (args : Args P fs) : List (String × FieldValue P) :=
  (fs.map (·.name)).zip (args.values fs)

theorem map_fst_entries {P : Type} (args : Args P fs) :
    args.entries.map Prod.fst = fs.map (·.name) :=
  List.map_fst_zip (by rw [List.length_map, length_values])

theorem name_ne_of_mem {P : Type} {args : Args P fs} {e : String × FieldValue P} {name : String}
    (hname : name ∉ fs.map (·.name)) (he : e ∈ args.entries) : ¬ e.1 = name := by
  rintro rfl
  have hmem := List.mem_map_of_mem (f := Prod.fst) he
  rw [map_fst_entries] at hmem
  exact hname hmem

/-- A content that has the value of each field under its name gives the fields their values. -/
theorem mapM_fromRecord {content : Datum} (args : Args (Param Float) fs)
    (h : ∀ n v, (n, v) ∈ args.entries → content.contentOf n = .ok v.toDatum) :
    fs.mapM (fun f => do
      let v ← content.contentOf f.name
      f.kind.fromRecord v) = .ok (given fs args) := by
  rw [mapM_eq_ok_iff]
  induction fs with
  | nil => exact .nil
  | cons f fs ih =>
    obtain ⟨x, rest⟩ := args
    refine .cons ?_ (ih rest fun n v hmem => h n v (List.mem_cons_of_mem _ hmem))
    rw [h f.name (f.kind.tagged x) List.mem_cons_self]
    exact f.kind.fromRecord_tagged x

/-- Fields with different names have equal entries just when their values agree. -/
theorem equal_entries (hnodup : (fs.map (·.name)).Nodup) (a b : Args (Param Float) fs) :
    (∀ e ∈ a.entries, ∀ w, b.entries.lookup e.1 = some w →
      e.2.toDatum.equal w.toDatum = .ok (e.2.equalBy Param.equal w)) ∧
    (a.entries.all fun e => (b.entries.lookup e.1).any (e.2.equalBy Param.equal)) =
      Operation.agree (a.values fs) (b.values fs) := by
  induction fs with
  | nil => exact ⟨nofun, rfl⟩
  | cons f fs ih =>
    obtain ⟨x, as⟩ := a
    obtain ⟨y, bs⟩ := b
    rw [List.map_cons, List.nodup_cons] at hnodup
    obtain ⟨hvalues, hall⟩ := ih hnodup.2 as bs
    -- The other fields have other names, so their values are looked up behind the first entry.
    have hbehind : ∀ e ∈ as.entries,
        ((f.name, f.kind.tagged y) :: bs.entries).lookup e.1 = bs.entries.lookup e.1 := by
      intro e he
      rw [List.lookup_cons, beq_eq_false_iff_ne.mpr (name_ne_of_mem hnodup.1 he)]
    have hfirst : ((f.name, f.kind.tagged y) :: bs.entries).lookup f.name =
        some (f.kind.tagged y) := by
      rw [List.lookup_cons, beq_self_eq_true]
    constructor
    · intro e he w hw
      rcases List.mem_cons.mp he with rfl | hmem
      · cases hfirst.symm.trans hw
        exact f.kind.equal_tagged x y
      · exact hvalues e hmem w ((hbehind e hmem).symm.trans hw)
    · show ((f.name, f.kind.tagged x) :: as.entries).all (fun e =>
        (((f.name, f.kind.tagged y) :: bs.entries).lookup e.1).any (e.2.equalBy Param.equal)) = _
      rw [List.all_cons, hfirst, values, values, Operation.agree, ← hall]
      refine congrArg₂ and rfl ?_
      rw [Bool.eq_iff_iff, List.all_eq_true, List.all_eq_true]
      exact forall₂_congr fun e he => by rw [hbehind e he]

end Args

/-! ## Operations -/

namespace Operation

/-- The fields of an operation in its record. -/
def content (op : Operation (Param Float)) : Datum :=
  .mapping (op.entries.map fun e => (.text e.1, e.2.toDatum))

variable {op : Operation (Param Float)} {family : String}

theorem contentOf_content {n : String} {v : FieldValue (Param Float)} (h : (n, v) ∈ op.entries) :
    op.content.contentOf n = .ok v.toDatum := by
  have hnames : op.entries.map Prod.fst = op.kind.fields.map (·.name) := op.args.map_fst_entries
  have hnodup : (op.entries.map Prod.fst).Nodup := by
    rw [hnames]
    exact op.kind.nodup_names
  have hlookup : Datum.lookup (.text n) (op.entries.map fun e => (.text e.1, e.2.toDatum)) =
      .ok (some v.toDatum) := by
    rw [Datum.lookup_map Datum.text FieldValue.toDatum Datum.sameKey_text ⟨_, rfl⟩,
      Datum.lookup_of_mem hnodup h]
    rfl
  show (Datum.lookup (.text n) _ >>= _) = _
  rw [hlookup]
  rfl

/-- The content of the record of an operation gives the operation. -/
theorem ofContent_content : ofContent op.kind op.content = .ok op := by
  have hfields := op.args.mapM_fromRecord fun n v h => op.contentOf_content h
  unfold ofContent
  rw [hfields]
  show (Args.read op.kind.fields (Args.given op.kind.fields op.args) >>= _) = _
  rw [Args.read_given]
  rfl

/-- The record of an operation is read back by each name that its kind is called, and refused by
every other name. -/
theorem ofRecord_toRecord (op : Operation (Param Float)) (family : String) :
    ofRecord family op.toRecord =
      if op.kind.isCalled family then .ok op else .error (.otherFamily op.kind.name family) := by
  have hkey : (Datum.text op.kind.name).keyText?.bind Kind.ofName? = some op.kind :=
    Kind.ofName?_name op.kind
  unfold ofRecord toRecord
  simp only [Datum.items, Datum.items?, List.map_cons, List.map_nil]
  rw [hkey]
  cases hcalled : op.kind.isCalled family with
  | true =>
    simp only [hcalled]
    exact ofContent_content
  | false =>
    simp only [hcalled]
    rfl

/-- Records of operations are equal just when the operations are. -/
theorem equal_toRecord (a b : Operation (Param Float)) :
    a.toRecord.equal b.toRecord = .ok (a.equal b) := by
  have hsame : (a.kind.name == b.kind.name) = (a.kind == b.kind) := by
    rw [Bool.eq_iff_iff, beq_iff_eq, beq_iff_eq, Kind.name_inj]
  unfold equal
  rw [← hsame]
  refine Datum.equal_singleton _ fun hname => ?_
  obtain ⟨k, as⟩ := a
  obtain ⟨k', bs⟩ := b
  obtain rfl : k = k' := Kind.name_inj.mp hname
  obtain ⟨hvalues, hall⟩ := Args.equal_entries k.nodup_names as bs
  have hlength : as.entries.length = bs.entries.length := by
    rw [← List.length_map Prod.fst, as.map_fst_entries, ← bs.map_fst_entries, List.length_map]
  refine (Datum.equal_mapping Datum.text FieldValue.toDatum Datum.sameKey_text
    (FieldValue.equalBy Param.equal) _ _ hlength hvalues).trans ?_
  exact congrArg Except.ok hall

theorem kind_ofContent {k : Kind} {content : Datum} (h : ofContent k content = .ok op) :
    op.kind = k := by
  obtain ⟨values, -, h⟩ := bind_eq_ok h
  obtain ⟨args, -, h⟩ := bind_eq_ok h
  cases h
  rfl

/-- What a record is read as is called by the name that it was read by. -/
theorem isCalled_of_ofRecord {d : Datum} (h : ofRecord family d = .ok op) :
    op.kind.isCalled family = true := by
  obtain ⟨items, -, h⟩ := bind_eq_ok h
  by_cases hcount : items.length ≠ 1
  · rw [if_pos hcount] at h
    cases h
  rw [if_neg hcount] at h
  split at h
  next name content =>
    split at h
    next => cases h
    next k hkind =>
      cases hcalled : k.isCalled family with
      | true =>
        rw [hcalled] at h
        rw [kind_ofContent h, hcalled]
      | false =>
        rw [hcalled] at h
        cases h
  next => cases h

/-- The record of an operation without a literal that is not a number is read back by the name of
its kind and of each family that its kind belongs to, as an operation that is equal to it; the names
of all other kinds and families refuse it. Its record is equal to that of another operation just
when the operations are equal, and if any record is read as the operation, so is its own. -/
theorem record_round_trip (op : Operation (Param Float))
    (hop : ∀ x, Param.literal x ∈ op.parameters → x.isNaN = false) :
    ofRecord Family.operation.name op.toRecord = .ok op ∧ op.equal op = true ∧
    (∀ f : Family, ofRecord f.name op.toRecord =
      if op.kind.isIn f then .ok op else .error (.otherFamily op.kind.name f.name)) ∧
    (∀ k : Kind, ofRecord k.name op.toRecord =
      if k = op.kind then .ok op else .error (.otherFamily op.kind.name k.name)) ∧
    (∀ other : Operation (Param Float), other.toRecord.equal op.toRecord = .ok (other.equal op)) ∧
    ∀ family d, ofRecord family d = .ok op → ofRecord family op.toRecord = .ok op := by
  have hfamily (f : Family) : ofRecord f.name op.toRecord =
      if op.kind.isIn f then .ok op else .error (.otherFamily op.kind.name f.name) := by
    rw [ofRecord_toRecord, Kind.isCalled_family]
  refine ⟨hfamily .operation, equal_self_iff.mpr hop, hfamily, fun k => ?_,
    fun other => equal_toRecord other op, fun family d hd => ?_⟩
  · rw [ofRecord_toRecord, Kind.isCalled_name]
    simp only [decide_eq_true_eq]
  · rw [ofRecord_toRecord, if_pos (isCalled_of_ofRecord hd)]

theorem record_round_trip_of_call :
    let op : Operation (Param Float) :=
      ⟨.call, "my_gate", [2, 0, 2], [.literal 0.6, .expression "2 * theta"], ()⟩
    let bare : Datum := .mapping [(.text "CallDefinedGate", .mapping [
      (.text "free_parameters", .tuple [.number 0.6, .mapping [(.text "Str", .text "2 * theta")]]),
      (.text "qubits", .list [.integer 2, .integer 0, .integer 2]),
      (.text "gate_name", .text "my_gate")])]
    (∀ x, Param.literal x ∈ op.parameters → x.isNaN = false) ∧
    ofRecord "Operation" bare = .ok op ∧ ofRecord "Operation" op.toRecord = .ok op ∧
    op.equal op = true ∧
    ofRecord "GateOperation" op.toRecord = .error (.otherFamily "CallDefinedGate" "GateOperation") ∧
    ofRecord "RotateX" op.toRecord = .error (.otherFamily "CallDefinedGate" "RotateX") := by
  intro op bare
  have hop : ∀ x, Param.literal x ∈ op.parameters → x.isNaN = false := by
    intro x hx
    have hmem : Param.literal x ∈ [Param.literal 0.6, .expression "2 * theta"] := hx
    simp only [List.mem_cons, Param.literal.injEq, reduceCtorEq, List.not_mem_nil, or_false] at hmem
    rw [hmem]
    decide +kernel
  have hbare : ofRecord "Operation" bare = .ok op := by with_unfolding_all rfl
  obtain ⟨-, hequal, hfamily, hkind, -, hagain⟩ := record_round_trip op hop
  exact ⟨hop, hbare, hagain _ _ hbare, hequal, hfamily .gate, hkind (.single .rotateX)⟩

end Operation

end QuantumGates
