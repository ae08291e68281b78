-- Which fault wins. The qubits and the parameters of an operation are changed one after another in
-- the order of its fields, and those of a circuit in the order of its operations; the first change
-- that fails gives its fault, and if none fails there is a result. This is said once, by looking at
-- nothing but the faults, for a change of qubits and for a change of parameters alike.
import Mathlib.Data.List.Basic
import QuantumGates.Circuit.Basic

namespace QuantumGates

/-! ## Faults of what is done in order -/

section

variable {A B C X Y F : Type}

/-- The fault that a result is, if it is one. -/
def faultOf : Except F X → Option F
  | .ok _ => none
  | .error fault => some fault

@[simp] theorem faultOf_ok (x : X) : faultOf (.ok x : Except F X) = none := rfl

@[simp] theorem faultOf_error (fault : F) : faultOf (.error fault : Except F X) = some fault := rfl

@[simp] theorem faultOf_pure (x : X) : faultOf (pure x : Except F X) = none := rfl

theorem faultOf_eq_none {m : Except F X} : faultOf m = none ↔ ∃ x, m = .ok x := by
  cases m with
  | ok x => exact iff_of_true rfl ⟨x, rfl⟩
  | error fault => exact iff_of_false nofun nofun

theorem faultOf_eq_some {m : Except F X} {fault : F} :
    faultOf m = some fault ↔ m = .error fault := by
  cases m with
  | ok x => exact iff_of_false nofun nofun
  | error e => exact ⟨fun h => congrArg _ (Option.some.inj h), fun h => congrArg _ (Except.error.inj h)⟩

/-- The fault of two steps is that of the first one, or else that of the second one. -/
theorem faultOf_bind {m : Except F X} {next : X → Except F Y} (second : Option F)
    (h : ∀ x, m = .ok x → faultOf (next x) = second) :
    faultOf (m >>= next) = (faultOf m).or second := by
  cases m with
  | ok x => exact h x rfl
  | error fault => rfl

/-- A step that can not fail after another one has no fault of its own. -/
theorem faultOf_bind_pure (m : Except F X) (f : X → Y) :
    faultOf (m >>= fun x => pure (f x)) = faultOf m := by
  cases m <;> rfl

theorem faultOf_map (m : Except F X) (f : X → Y) : faultOf (m.map f) = faultOf m := by
  cases m <;> rfl

theorem faultOf_mapM (f : A → Except F B) (as : List A) :
    faultOf (as.mapM f) = as.findSome? fun a => faultOf (f a) := by
  induction as with
  | nil => rfl
  | cons a as ih =>
    rw [List.mapM_cons, List.findSome?_cons,
      faultOf_bind (as.findSome? fun a => faultOf (f a)) fun c _ => ?_]
    · cases faultOf (f a) <;> rfl
    · exact (faultOf_bind_pure _ _).trans ih

theorem findSome?_singleton (hit : A → Option F) (a : A) : [a].findSome? hit = hit a := by
  rw [List.findSome?_cons]
  cases hit a <;> rfl

/-- The first hit among the parts of several values, one value after another. -/
theorem findSome?_flatMap (parts : A → List B) (hit : B → Option F) (as : List A) :
    (as.flatMap parts).findSome? hit = as.findSome? fun a => (parts a).findSome? hit := by
  induction as with
  | nil => rfl
  | cons a as ih =>
    rw [List.flatMap_cons, List.findSome?_append, List.findSome?_cons, ih]
    cases (parts a).findSome? hit <;> rfl

/-- The result of a change of members one after another: there is one just when every member can be
changed, and if there is none, the fault is that of the first member that can not be changed. -/
structure EndsInOrder (change : A → Except F B) (as : List A) (result : Except F X) : Prop where
  succeeds : (∃ x, result = .ok x) ↔ ∀ a ∈ as, ∃ c, change a = .ok c
  fails (fault : F) : result = .error fault ↔
    ∃ before a after, as = before ++ a :: after ∧ (∀ c ∈ before, ∃ y, change c = .ok y) ∧
      change a = .error fault

theorem endsInOrder {change : A → Except F B} {as : List A} {result : Except F X}
    (h : faultOf result = as.findSome? fun a => faultOf (change a)) :
    EndsInOrder change as result where
  succeeds := by
    rw [← faultOf_eq_none, h, List.findSome?_eq_none_iff]
    simp only [faultOf_eq_none]
  fails fault := by
    rw [← faultOf_eq_some, h, List.findSome?_eq_some_iff]
    simp only [faultOf_eq_none, faultOf_eq_some]
    constructor
    · rintro ⟨before, a, after, has, ha, hbefore⟩
      exact ⟨before, a, after, has, hbefore, ha⟩
    · rintro ⟨before, a, after, has, hbefore, ha⟩
      exact ⟨before, a, after, has, ha, hbefore⟩

end

/-! ## Fields -/

section

variable {P Q F : Type} {onQubit : ℕ → Except F ℕ} {onParameter : P → Except F Q}

/-- The first fault of a change of the qubits and parameters of a value. -/
def FieldValue.firstFault (onQubit : ℕ → Except F ℕ) (onParameter : P → Except F Q)
    (v : FieldValue P) : Option F :=
  (v.qubitList.findSome? fun q => faultOf (onQubit q)).or
    (v.parameterList.findSome? fun p => faultOf (onParameter p))

theorem FieldKind.faultOf_traverse (k : FieldKind) (x : k.Carrier P) :
    faultOf (k.traverse (m := Except F) onQubit onParameter x) =
      (k.tagged x).firstFault onQubit onParameter := by
  cases k with
  | qubit =>
    show _ = ([x].findSome? fun q => faultOf (onQubit q)).or none
    rw [findSome?_singleton, Option.or_none]
    rfl
  | qubits =>
    show _ = (List.findSome? _ x).or none
    rw [Option.or_none]
    exact faultOf_mapM onQubit x
  | parameter => exact (findSome?_singleton (fun p => faultOf (onParameter p)) x).symm
  | parameters => exact faultOf_mapM onParameter x
  | flag => rfl
  | name => rfl

theorem Args.faultOf_traverse (fs : List Field) (args : Args P fs) :
    faultOf (args.traverse (m := Except F) onQubit onParameter fs) =
      (args.values fs).findSome? (FieldValue.firstFault onQubit onParameter) := by
  induction fs with
  | nil => rfl
  | cons f fs ih =>
    obtain ⟨x, rest⟩ := args
    rw [Args.traverse, Args.values, List.findSome?_cons, ← FieldKind.faultOf_traverse,
      faultOf_bind (faultOf (rest.traverse (m := Except F) onQubit onParameter fs)) fun y _ => ?_, ih]
    · cases faultOf (f.kind.traverse (m := Except F) onQubit onParameter x) <;> rfl
    · exact faultOf_bind_pure _ _

end

/-! ## Operations and circuits -/

section

variable {P Q F : Type}

theorem findSome?_faultOf_pure {A : Type} (as : List A) :
    (as.findSome? fun a => faultOf (pure a : Except F A)) = none :=
  List.findSome?_eq_none_iff.mpr fun _ _ => rfl

/-- A change of the parameters of an operation follows their order. -/
theorem Operation.faultOf_mapParameters (op : Operation P) (change : P → Except F Q) :
    faultOf (op.mapParameters change) = op.parameters.findSome? fun p => faultOf (change p) := by
  have hvalue : FieldValue.firstFault (F := F) pure change =
      fun v => v.parameterList.findSome? fun p => faultOf (change p) := by
    funext v
    unfold FieldValue.firstFault
    rw [findSome?_faultOf_pure, Option.none_or]
  unfold mapParameters parameters
  rw [faultOf_map, Args.faultOf_traverse, findSome?_flatMap, hvalue]
  rfl

/-- A change of the qubits of an operation follows their order. -/
theorem Operation.faultOf_remap (op : Operation P) (rename : ℕ → Except F ℕ) :
    faultOf (op.remap rename) = op.qubits.findSome? fun q => faultOf (rename q) := by
  have hvalue : FieldValue.firstFault (F := F) (P := P) rename pure =
      fun v => v.qubitList.findSome? fun q => faultOf (rename q) := by
    funext v
    unfold FieldValue.firstFault
    rw [findSome?_faultOf_pure, Option.or_none]
  unfold remap qubits
  rw [faultOf_map, Args.faultOf_traverse, findSome?_flatMap, hvalue]
  rfl

end

/-! ## Expressions -/

section

variable {R : Type}

/-- The text of a parameter that waits for the values of variables. -/
def Param.texts : Param R → List String
  | .literal _ => []
  | .expression text => [text]

/-- The texts of the parameters that are expressions, in the order of the fields. -/
def Operation.expressions (op : Operation (Param R)) : List String :=
  op.parameters.flatMap Param.texts

variable (evaluate : String → Except (Fault R) R)

theorem Param.faultOf_substitute (p : Param R) :
    faultOf (p.substitute evaluate) = p.texts.findSome? fun text => faultOf (evaluate text) := by
  cases p with
  | literal x => rfl
  | expression text =>
    rw [texts, findSome?_singleton]
    exact faultOf_map _ _

/-- An operation is evaluated expression by expression. -/
theorem Operation.faultOf_substitute (op : Operation (Param R)) :
    faultOf (op.substitute evaluate) =
      op.expressions.findSome? fun text => faultOf (evaluate text) := by
  unfold substitute expressions
  rw [faultOf_mapParameters, findSome?_flatMap]
  exact congrArg (List.findSome? · op.parameters) (funext fun p => p.faultOf_substitute evaluate)

theorem Operation.substitute_endsInOrder (op : Operation (Param R)) :
    EndsInOrder evaluate op.expressions (op.substitute evaluate) :=
  endsInOrder (op.faultOf_substitute evaluate)

theorem Circuit.substitute_endsInOrder (c : Circuit R) :
    EndsInOrder evaluate (c.flatMap Operation.expressions) (c.substitute evaluate) := by
  refine endsInOrder ?_
  unfold Circuit.substitute
  rw [faultOf_mapM, findSome?_flatMap]
  exact congrArg (List.findSome? · c) (funext fun op => op.faultOf_substitute evaluate)

end

/-! ## Qubits -/

section

variable {P R F : Type} (rename : ℕ → Except F ℕ)

theorem Operation.remap_endsInOrder (op : Operation P) :
    EndsInOrder rename op.qubits (op.remap rename) :=
  endsInOrder (op.faultOf_remap rename)

theorem Circuit.remap_endsInOrder (c : Circuit R) :
    EndsInOrder rename (c.flatMap Operation.qubits) (c.remap rename) := by
  refine endsInOrder ?_
  unfold Circuit.remap
  rw [faultOf_mapM, findSome?_flatMap]
  exact congrArg (List.findSome? · c) (funext fun op => op.faultOf_remap rename)

end

end QuantumGates
