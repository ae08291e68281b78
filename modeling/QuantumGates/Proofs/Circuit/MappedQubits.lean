-- Renaming qubits by a mapping. A mapping of qubits to qubits renames what it has all qubits of, and
-- else names the first one that it lacks. Renaming by two mappings after each other is renaming by
-- the mapping that leads through both, so a mapping that tells the qubits apart can be undone; and
-- renaming does not look at parameters, so it makes no difference whether they are evaluated before
-- or after it. Operations and circuits follow these laws for the same few reasons.
import QuantumGates.Datum.Record
import QuantumGates.Datum.Table
import QuantumGates.Proofs.Circuit.FirstFault
import QuantumGates.Proofs.Circuit.RenamedCircuits
import QuantumGates.Proofs.Datum.Values

namespace QuantumGates

/-! ## Mappings as values -/

/-- A mapping of qubits to qubits as a value. -/
def qubitMapping (m : List (ℕ × ℕ)) : Datum :=
  .mapping (m.map fun e => (.integer e.1, .integer e.2))

/-- The mapping that leads through the mapping `m` and then through `m'`. -/
def mappingAfter (m' m : List (ℕ × ℕ)) : List (ℕ × ℕ) :=
  m.filterMap fun e => (m'.lookup e.2).map fun r => (e.1, r)

/-- The mapping that leads back from the images of some qubits. -/
def mappingBack (qs : List ℕ) (m : List (ℕ × ℕ)) : List (ℕ × ℕ) :=
  qs.filterMap fun q => (m.lookup q).map fun p => (p, q)

theorem Datum.lookup_qubitMapping (m : List (ℕ × ℕ)) (q : ℕ) :
    Datum.lookup (.integer q) (m.map fun e => (.integer e.1, .integer e.2)) =
      .ok ((m.lookup q).map fun p : ℕ => .integer p) := by
  have hkey (a b : ℕ) : (Datum.integer a).sameKey (.integer b) = .ok (a == b) := by
    simp [Datum.sameKey_integer]
  exact Datum.lookup_map (fun q : ℕ => .integer q) (fun p : ℕ => .integer p) hkey ⟨_, rfl⟩ m

/-- A mapping gives the new name of each qubit that it has. -/
theorem rename_qubitMapping (m : List (ℕ × ℕ)) (q : ℕ) :
    (qubitMapping m).rename q =
      match m.lookup q with
      | some p => .ok p
      | none => .error (.unmappedQubit q) := by
  unfold Datum.rename Datum.at qubitMapping
  simp only [Datum.lookup_qubitMapping]
  cases m.lookup q with
  | none => rfl
  | some p => exact Datum.qubit_natCast p

theorem rename_qubitMapping_eq_ok_iff {m : List (ℕ × ℕ)} {q p : ℕ} :
    (qubitMapping m).rename q = .ok p ↔ m.lookup q = some p := by
  rw [rename_qubitMapping]
  cases m.lookup q with
  | none => exact iff_of_false nofun nofun
  | some p' => rw [Except.ok.injEq, Option.some.injEq]

theorem rename_qubitMapping_eq_error_iff {m : List (ℕ × ℕ)} {q : ℕ} {fault : Fault Float} :
    (qubitMapping m).rename q = .error fault ↔ m.lookup q = none ∧ fault = .unmappedQubit q := by
  rw [rename_qubitMapping]
  cases m.lookup q with
  | none => exact ⟨fun h => ⟨rfl, (Except.error.inj h).symm⟩, fun h => congrArg _ h.2.symm⟩
  | some p => exact iff_of_false nofun nofun

theorem lookup_mappingAfter (m' m : List (ℕ × ℕ)) {q p r : ℕ} (hp : m.lookup q = some p)
    (hr : m'.lookup p = some r) : (mappingAfter m' m).lookup q = some r := by
  unfold mappingAfter
  induction m with
  | nil => cases hp
  | cons e m ih =>
    obtain ⟨k, v⟩ := e
    rw [List.lookup_cons] at hp
    by_cases hq : q = k
    · subst hq
      rw [beq_self_eq_true] at hp
      cases hp
      rw [List.filterMap_cons, hr, Option.map_some, List.lookup_cons, beq_self_eq_true]
    · rw [beq_eq_false_iff_ne.mpr hq] at hp
      rw [List.filterMap_cons]
      cases m'.lookup v with
      | none => exact ih hp
      | some r' =>
        rw [Option.map_some, List.lookup_cons, beq_eq_false_iff_ne.mpr hq]
        exact ih hp

/-- The mapping back leads back where the mapping tells the qubits apart. -/
theorem lookup_mappingBack {qs : List ℕ} {m : List (ℕ × ℕ)} {q p : ℕ} (hq : q ∈ qs)
    (hp : m.lookup q = some p)
    (hinj : ∀ r ∈ qs, ∀ s ∈ qs, m.lookup r = m.lookup s → r = s) :
    (mappingBack qs m).lookup p = some q := by
  have hunique : ∀ r ∈ qs, m.lookup r = some p → r = q := fun r hr h =>
    hinj r hr q hq (h.trans hp.symm)
  unfold mappingBack
  clear hinj
  induction qs with
  | nil => cases hq
  | cons r qs ih =>
    rw [List.filterMap_cons]
    by_cases hr : m.lookup r = some p
    · rw [hr, Option.map_some, List.lookup_cons, beq_self_eq_true,
        hunique r List.mem_cons_self hr]
    · have hne : r ≠ q := by
        rintro rfl
        exact hr hp
      have hrest := ih ((List.mem_cons.mp hq).resolve_left hne.symm) fun s hs =>
        hunique s (List.mem_cons_of_mem r hs)
      cases hlookup : m.lookup r with
      | none => exact hrest
      | some v =>
        have hv : p ≠ v := by
          rintro rfl
          exact hr hlookup
        rw [Option.map_some, List.lookup_cons, beq_eq_false_iff_ne.mpr hv]
        exact hrest

/-! ## Renaming twice -/

section

variable {P : Type} {g h : ℕ → ℕ}

theorem FieldKind.renamed_renamed (k : FieldKind) (x : k.Carrier P) :
    k.renamed h (k.renamed g x) = k.renamed (h ∘ g) x := by
  cases k with
  | qubits => exact List.map_map
  | _ => rfl

theorem Args.renamed_renamed (fs : List Field) (args : Args P fs) :
    (args.renamed g fs).renamed h fs = args.renamed (h ∘ g) fs := by
  induction fs with
  | nil => rfl
  | cons f fs ih =>
    rw [Args.renamed, Args.renamed, Args.renamed, FieldKind.renamed_renamed, ih]

theorem Operation.renamed_renamed (op : Operation P) :
    (op.renamed g).renamed h = op.renamed (h ∘ g) :=
  congrArg (Operation.mk op.kind) (Args.renamed_renamed op.kind.fields op.args)

/-! ## Renaming and parameters -/

variable {Q F : Type} {change : P → Except F Q}

theorem FieldKind.traverse_renamed (k : FieldKind) (x : k.Carrier P) :
    k.traverse (m := Except F) pure change (k.renamed g x) =
      (k.traverse pure change x).map (k.renamed g) := by
  have hpure (qs : List ℕ) : List.mapM (m := Except F) pure qs = .ok qs := by
    rw [List.mapM_pure]
    simp [pure, Except.pure]
  have hmap {A : Type} (m : Except F A) : m = m.map id := by
    cases m <;> rfl
  cases k with
  | qubits =>
    show List.mapM pure (x.map g) = Except.map (List.map g) (List.mapM pure x)
    rw [hpure, hpure]
    rfl
  | parameter => exact hmap (change x)
  | parameters => exact hmap (x.mapM change)
  | _ => rfl

theorem Args.traverse_renamed (fs : List Field) (args : Args P fs) :
    (args.renamed g fs).traverse (m := Except F) pure change fs =
      (args.traverse pure change fs).map (Args.renamed g fs) := by
  induction fs with
  | nil => rfl
  | cons f fs ih =>
    obtain ⟨x, rest⟩ := args
    rw [Args.renamed, Args.traverse, Args.traverse, FieldKind.traverse_renamed, ih]
    cases f.kind.traverse (m := Except F) pure change x with
    | error fault => rfl
    | ok y => cases rest.traverse (m := Except F) pure change fs <;> rfl

theorem Operation.mapParameters_renamed (op : Operation P) :
    (op.renamed g).mapParameters change = (op.mapParameters change).map (Operation.renamed g) := by
  unfold mapParameters
  show (Args.traverse pure change op.kind.fields (op.args.renamed g op.kind.fields)).map _ = _
  rw [Args.traverse_renamed]
  cases op.args.traverse (m := Except F) pure change op.kind.fields <;> rfl

end

theorem newName_eq {F : Type} {rename : ℕ → Except F ℕ} {q p : ℕ} (h : rename q = .ok p) :
    newName rename q = p := by
  unfold newName
  rw [h]

/-! ## What can be renamed -/

/-- Something with qubits and parameters, and what renaming and evaluating it come down to. -/
structure Renamable (X : Type) where
  qubits : X → List ℕ
  involved : X → Involved
  renamed : (ℕ → ℕ) → X → X
  remap : X → (ℕ → Except (Fault Float) ℕ) → Except (Fault Float) X
  substitute : X → (String → Except (Fault Float) Float) → Except (Fault Float) X
  endsInOrder (x : X) (rename : ℕ → Except (Fault Float) ℕ) :
    EndsInOrder rename (qubits x) (remap x rename)
  remap_eq_ok {x : X} {rename : ℕ → Except (Fault Float) ℕ} {g : ℕ → ℕ} :
    (∀ q ∈ qubits x, rename q = .ok (g q)) → remap x rename = .ok (renamed g x)
  qubits_renamed (g : ℕ → ℕ) (x : X) : qubits (renamed g x) = (qubits x).map g
  renamed_renamed (g h : ℕ → ℕ) (x : X) : renamed h (renamed g x) = renamed (h ∘ g) x
  renamed_eq_self {g : ℕ → ℕ} {x : X} : (∀ q ∈ qubits x, g q = q) → renamed g x = x
  mem_involved {x : X} {i : ℤ} : i ∈ (involved x).qubits ↔ ∃ q ∈ qubits x, i = q
  kind_involved {x y : X} : (qubits x).isEmpty = (qubits y).isEmpty →
    (involved x).kind = (involved y).kind
  qubits_substitute {x y : X} {evaluate : String → Except (Fault Float) Float} :
    substitute x evaluate = .ok y → qubits y = qubits x
  substitute_renamed (x : X) (g : ℕ → ℕ) (evaluate : String → Except (Fault Float) Float) :
    substitute (renamed g x) evaluate = (substitute x evaluate).map (renamed g)

theorem Involved.mem_of {qs : List ℕ} {i : ℤ} : i ∈ (Involved.of qs).qubits ↔ ∃ q ∈ qs, i = q := by
  show i ∈ Involved.ordered (qs.map Int.ofNat) ↔ _
  unfold Involved.ordered
  rw [List.mem_eraseDups, List.mem_mergeSort, List.mem_map]
  exact exists_congr fun q => and_congr_right fun _ => eq_comm

theorem Operation.qubits_substitute {R : Type} {op op' : Operation (Param R)}
    {evaluate : String → Except (Fault R) R} (h : op.substitute evaluate = .ok op') :
    op'.qubits = op.qubits := by
  obtain ⟨args', rfl, hargs⟩ := mapParameters_eq_ok_iff.mp h
  exact hargs.qubits_eq.symm

/-- Operations are renamed and evaluated field by field. -/
def Operation.renamable : Renamable (Operation (Param Float)) where
  qubits := Operation.qubits
  involved := Operation.involved
  renamed := Operation.renamed
  remap := Operation.remap
  substitute := Operation.substitute
  endsInOrder op rename := op.remap_endsInOrder rename
  remap_eq_ok := Operation.remap_eq_ok
  qubits_renamed := Operation.qubits_renamed
  renamed_renamed _ _ op := op.renamed_renamed
  renamed_eq_self := Operation.renamed_eq_self
  mem_involved := Involved.mem_of
  kind_involved _ := rfl
  qubits_substitute := Operation.qubits_substitute
  substitute_renamed op _ _ := op.mapParameters_renamed

/-- Circuits are renamed and evaluated operation by operation. -/
def Circuit.renamable : Renamable (Circuit Float) where
  qubits c := c.flatMap Operation.qubits
  involved := Circuit.involved
  renamed g c := c.map (Operation.renamed g)
  remap := Circuit.remap
  substitute := Circuit.substitute
  endsInOrder c rename := c.remap_endsInOrder rename
  remap_eq_ok h := Circuit.remap_eq_ok fun op hop q hq => h q (List.mem_flatMap.mpr ⟨op, hop, hq⟩)
  qubits_renamed g c := by
    rw [List.map_flatMap, List.flatMap_map]
    exact congrArg (List.flatMap · c) (funext (Operation.qubits_renamed g))
  renamed_renamed g h c := by
    rw [List.map_map]
    exact congrArg (List.map · c) (funext Operation.renamed_renamed)
  renamed_eq_self h := by
    refine (List.map_congr_left fun op hop => ?_).trans (List.map_id _)
    exact Operation.renamed_eq_self fun q hq => h q (List.mem_flatMap.mpr ⟨op, hop, hq⟩)
  mem_involved {c i} := by
    unfold Circuit.involved
    simp only
    split
    · rename_i hempty
      rw [List.isEmpty_iff.mp hempty]
      exact iff_of_false List.not_mem_nil fun ⟨_, hq, _⟩ => List.not_mem_nil hq
    · exact Involved.mem_of
  kind_involved h := by
    unfold Circuit.involved
    simp only [h]
    split <;> rfl
  qubits_substitute h := by
    have hall := (mapM_eq_ok_iff.mp h).imp fun _ _ => Operation.qubits_substitute
    have hqubits := List.rel_flatMap hall fun _ _ hq => List.forall₂_eq_eq_eq ▸ hq.symm
    rw [List.forall₂_eq_eq_eq] at hqubits
    exact hqubits.symm
  substitute_renamed c g evaluate := by
    induction c with
    | nil => rfl
    | cons op c ih =>
      unfold Circuit.substitute at ih ⊢
      rw [List.map_cons, List.mapM_cons, List.mapM_cons, ih]
      unfold Operation.substitute
      rw [Operation.mapParameters_renamed]
      cases op.mapParameters (Param.substitute evaluate) with
      | error fault => rfl
      | ok op' => cases List.mapM (fun op => op.mapParameters (Param.substitute evaluate)) c <;> rfl

/-! ## The laws of renaming -/

/-- The laws of renaming by mappings of qubits to qubits, for things of one type. -/
structure RenamesByMappings {X : Type} (qubits : X → List ℕ) (involved : X → Involved)
    (remap substitute : X → Datum → Except (Fault Float) X) : Prop where
  /-- A mapping renames what it has all qubits of. -/
  succeeds (m : List (ℕ × ℕ)) (x : X) :
    (∃ y, remap x (qubitMapping m) = .ok y) ↔ ∀ q ∈ qubits x, (m.lookup q).isSome = true
  /-- Else the first qubit that it lacks is named. -/
  fails (m : List (ℕ × ℕ)) (x : X) (fault : Fault Float) :
    remap x (qubitMapping m) = .error fault ↔
      ∃ before q after, qubits x = before ++ q :: after ∧
        (∀ r ∈ before, (m.lookup r).isSome = true) ∧ m.lookup q = none ∧ fault = .unmappedQubit q
  composes {m m' : List (ℕ × ℕ)} {x y z : X} : remap x (qubitMapping m) = .ok y →
    remap y (qubitMapping m') = .ok z → remap x (qubitMapping (mappingAfter m' m)) = .ok z
  /-- A mapping that leads back from the images of all qubits undoes the renaming. -/
  restores {m m' : List (ℕ × ℕ)} {x y : X} : remap x (qubitMapping m) = .ok y →
    (∀ q ∈ qubits x, ∀ p, m.lookup q = some p → m'.lookup p = some q) →
    remap y (qubitMapping m') = .ok x
  /-- There is such a mapping where no two qubits have the same image. -/
  undone {m : List (ℕ × ℕ)} {x y : X} : remap x (qubitMapping m) = .ok y →
    (∀ q ∈ qubits x, ∀ r ∈ qubits x, m.lookup q = m.lookup r → q = r) →
    remap y (qubitMapping (mappingBack (qubits x) m)) = .ok x
  /-- The involved qubits are the images of those involved before. -/
  image {m : List (ℕ × ℕ)} {x y : X} : remap x (qubitMapping m) = .ok y →
    (involved y).kind = (involved x).kind ∧
    ∀ i, i ∈ (involved y).qubits ↔
      ∃ q p : ℕ, (q : ℤ) ∈ (involved x).qubits ∧ m.lookup q = some p ∧ i = p
  /-- It makes no difference whether parameters are evaluated before or after the renaming. -/
  commutes (m : List (ℕ × ℕ)) (table : Datum) (x z : X) :
    (do remap (← substitute x table) (qubitMapping m)) = .ok z ↔
      (do substitute (← remap x (qubitMapping m)) table) = .ok z

namespace Renamable

variable {X : Type} (r : Renamable X) {rename rename' back : ℕ → Except (Fault Float) ℕ} {x y z : X}

/-- What is renamed has new names for all qubits, and keeps all else. -/
theorem remap_eq_ok_iff :
    r.remap x rename = .ok y ↔
      (∀ q ∈ r.qubits x, ∃ p, rename q = .ok p) ∧ y = r.renamed (newName rename) x := by
  have hname (h : ∀ q ∈ r.qubits x, ∃ p, rename q = .ok p) :
      r.remap x rename = .ok (r.renamed (newName rename) x) :=
    r.remap_eq_ok fun q hq => rename_eq_newName (h q hq)
  constructor
  · intro h
    have hall := (r.endsInOrder x rename).succeeds.mp ⟨y, h⟩
    exact ⟨hall, Except.ok.inj (h.symm.trans (hname hall))⟩
  · rintro ⟨h, rfl⟩
    exact hname h

/-- Renaming twice is renaming once by whatever leads through both. -/
theorem remap_remap (hy : r.remap x rename = .ok y) (hz : r.remap y rename' = .ok z)
    (hback : ∀ q ∈ r.qubits x, ∀ p s, rename q = .ok p → rename' p = .ok s → back q = .ok s) :
    r.remap x back = .ok z := by
  obtain ⟨hnames, rfl⟩ := r.remap_eq_ok_iff.mp hy
  obtain ⟨hnames', rfl⟩ := r.remap_eq_ok_iff.mp hz
  rw [r.renamed_renamed]
  refine r.remap_eq_ok fun q hq => ?_
  have hq' : newName rename q ∈ r.qubits (r.renamed (newName rename) x) := by
    rw [r.qubits_renamed]
    exact List.mem_map_of_mem hq
  exact hback q hq _ _ (rename_eq_newName (hnames q hq)) (rename_eq_newName (hnames' _ hq'))

/-- Renaming is undone by whatever leads back from the new names. -/
theorem remap_back (hy : r.remap x rename = .ok y)
    (hback : ∀ q ∈ r.qubits x, ∀ p, rename q = .ok p → back p = .ok q) :
    r.remap y back = .ok x := by
  obtain ⟨hnames, rfl⟩ := r.remap_eq_ok_iff.mp hy
  have hq : ∀ q ∈ r.qubits x, back (newName rename q) = .ok q := fun q hq =>
    hback q hq _ (rename_eq_newName (hnames q hq))
  refine r.remap_eq_ok_iff.mpr ⟨fun p hp => ?_, ?_⟩
  · rw [r.qubits_renamed, List.mem_map] at hp
    obtain ⟨q, hmem, rfl⟩ := hp
    exact ⟨q, hq q hmem⟩
  · rw [r.renamed_renamed]
    exact (r.renamed_eq_self fun q hmem => newName_eq (hq q hmem)).symm

theorem involved_remap (hy : r.remap x rename = .ok y) :
    (r.involved y).kind = (r.involved x).kind ∧
    ∀ i, i ∈ (r.involved y).qubits ↔
      ∃ q p : ℕ, (q : ℤ) ∈ (r.involved x).qubits ∧ rename q = .ok p ∧ i = p := by
  obtain ⟨hnames, rfl⟩ := r.remap_eq_ok_iff.mp hy
  refine ⟨r.kind_involved ?_, fun i => ?_⟩
  · rw [r.qubits_renamed]
    exact List.isEmpty_map
  · rw [r.mem_involved, r.qubits_renamed]
    constructor
    · rintro ⟨p, hp, rfl⟩
      obtain ⟨q, hq, rfl⟩ := List.mem_map.mp hp
      exact ⟨q, _, r.mem_involved.mpr ⟨q, hq, rfl⟩, rename_eq_newName (hnames q hq), rfl⟩
    · rintro ⟨q, p, hq, hp, rfl⟩
      obtain ⟨q', hq', heq⟩ := r.mem_involved.mp hq
      obtain rfl : q = q' := by exact_mod_cast heq
      refine ⟨p, List.mem_map.mpr ⟨q, hq', ?_⟩, rfl⟩
      unfold newName
      rw [hp]

/-- Renaming and evaluating can change places. -/
theorem remap_substitute_iff {evaluate : String → Except (Fault Float) Float} :
    (∃ y, r.substitute x evaluate = .ok y ∧ r.remap y rename = .ok z) ↔
      ∃ y, r.remap x rename = .ok y ∧ r.substitute y evaluate = .ok z := by
  simp only [r.remap_eq_ok_iff]
  constructor
  · rintro ⟨y, hy, hnames, rfl⟩
    rw [r.qubits_substitute hy] at hnames
    refine ⟨_, ⟨hnames, rfl⟩, ?_⟩
    rw [r.substitute_renamed, hy]
    rfl
  · rintro ⟨_, ⟨hnames, rfl⟩, hz⟩
    rw [r.substitute_renamed] at hz
    cases hy : r.substitute x evaluate with
    | error fault =>
      rw [hy] at hz
      cases hz
    | ok y =>
      rw [hy] at hz
      cases hz
      exact ⟨y, rfl, r.qubits_substitute hy ▸ hnames, rfl⟩

/-- What can be renamed follows the laws. -/
theorem renamesByMappings : RenamesByMappings r.qubits r.involved (fun x m => r.remap x m.rename)
    fun x table => do r.substitute x (← Bindings.ofDatum table).evaluate where
  succeeds m x := by
    rw [(r.endsInOrder x _).succeeds]
    simp only [rename_qubitMapping_eq_ok_iff, Option.isSome_iff_exists]
  fails m x fault := by
    rw [(r.endsInOrder x _).fails]
    simp only [rename_qubitMapping_eq_ok_iff, rename_qubitMapping_eq_error_iff,
      Option.isSome_iff_exists]
  composes hy hz := r.remap_remap hy hz fun q _ p s hp hs => by
    rw [rename_qubitMapping_eq_ok_iff] at hp hs ⊢
    exact lookup_mappingAfter _ _ hp hs
  restores hy hback := r.remap_back hy fun q hq p hp =>
    rename_qubitMapping_eq_ok_iff.mpr (hback q hq p (rename_qubitMapping_eq_ok_iff.mp hp))
  undone hy hinj := r.remap_back hy fun q hq p hp =>
    rename_qubitMapping_eq_ok_iff.mpr
      (lookup_mappingBack hq (rename_qubitMapping_eq_ok_iff.mp hp) hinj)
  image hy := by
    have h := r.involved_remap hy
    simp only [rename_qubitMapping_eq_ok_iff] at h
    exact h
  commutes m table x z := by
    cases Bindings.ofDatum table with
    | error fault =>
      refine iff_of_false nofun fun h => ?_
      obtain ⟨y, -, h⟩ := bind_eq_ok h
      cases h
    | ok b => exact (bind_eq_ok_iff.trans r.remap_substitute_iff).trans bind_eq_ok_iff.symm

end Renamable

/-- Operations and circuits follow the laws of renaming by mappings of qubits to qubits. -/
theorem remap_by_mappings :
    RenamesByMappings Operation.qubits Operation.involved Operation.remapWith
      Operation.substituteWith ∧
    RenamesByMappings (fun c : Circuit Float => c.flatMap Operation.qubits) Circuit.involved
      Circuit.remapWith Circuit.substituteWith :=
  ⟨Operation.renamable.renamesByMappings, Circuit.renamable.renamesByMappings⟩

/-- A flip with the names of its qubits exchanged and back, and a mapping that lacks its target. -/
theorem remap_by_mappings_of_flip :
    let c : Circuit Float := [.cnot 0 1]
    (∃ d, c.remapWith (qubitMapping [(0, 1), (1, 0)]) = .ok d ∧
      d.remapWith (qubitMapping [(1, 0), (0, 1)]) = .ok c) ∧
    c.remapWith (qubitMapping [(0, 7), (2, 1)]) = .error (.unmappedQubit 1) := by
  intro c
  have hlaws := remap_by_mappings.2
  have hqubits : c.flatMap Operation.qubits = [0, 1] := rfl
  have hback : mappingBack [0, 1] [(0, 1), (1, 0)] = [(1, 0), (0, 1)] := rfl
  obtain ⟨d, hd⟩ := (hlaws.succeeds [(0, 1), (1, 0)] c).mpr (by decide)
  have hc := hlaws.undone hd (by decide)
  simp only [hqubits, hback] at hc
  refine ⟨⟨d, hd, hc⟩, ?_⟩
  exact (hlaws.fails _ c _).mpr ⟨[0], 1, [], rfl, by decide, rfl, rfl⟩

end QuantumGates
