-- Results of steps that end with a value or a fault. Steps one after another end with a value just
-- when each of them does, and so does one step for every member of a list; else the fault is that
-- of one of the steps.
import Mathlib.Data.List.Forall2

namespace QuantumGates

variable {A B E : Type}

/-! ## One step after another -/

section

variable {m : Except E A} {f : A → Except E B} {b : B} {fault : E}

theorem bind_eq_ok (h : m >>= f = .ok b) : ∃ a, m = .ok a ∧ f a = .ok b := by
  cases m with
  | error e => cases h
  | ok a => exact ⟨a, rfl, h⟩

theorem bind_eq_ok_iff : m >>= f = .ok b ↔ ∃ a, m = .ok a ∧ f a = .ok b := by
  refine ⟨bind_eq_ok, ?_⟩
  rintro ⟨a, rfl, h⟩
  exact h

theorem bind_eq_error (h : m >>= f = .error fault) :
    m = .error fault ∨ ∃ a, m = .ok a ∧ f a = .error fault := by
  cases m with
  | error e =>
    cases h
    exact .inl rfl
  | ok a => exact .inr ⟨a, rfl, h⟩

end

/-! ## A step for each member -/

section

variable {f : A → Except E B} {as : List A}

theorem mapM_eq_ok_iff {bs : List B} :
    as.mapM f = .ok bs ↔ List.Forall₂ (fun a c => f a = .ok c) as bs := by
  constructor
  · intro h
    induction as generalizing bs with
    | nil =>
      cases h
      exact .nil
    | cons a as ih =>
      rw [List.mapM_cons] at h
      obtain ⟨c, hhead, h⟩ := bind_eq_ok h
      obtain ⟨cs, htail, h⟩ := bind_eq_ok h
      cases h
      exact .cons hhead (ih htail)
  · intro h
    induction h with
    | nil => rfl
    | cons hhead _ ih =>
      rw [List.mapM_cons, hhead, ih]
      rfl

/-- The values of members that all have the value of a function. -/
theorem mapM_eq_ok {g : A → B} (h : ∀ a ∈ as, f a = .ok (g a)) : as.mapM f = .ok (as.map g) := by
  rw [mapM_eq_ok_iff, List.forall₂_map_right_iff, List.forall₂_same]
  exact h

theorem mapM_pure (as : List A) : as.mapM (m := Except E) pure = .ok as := by
  rw [mapM_eq_ok_iff, List.forall₂_same]
  exact fun _ _ => rfl

variable {C : Type}

theorem mapM_map (f : A → Except E B) (g : B → C) (as : List A) :
    (as.mapM fun a => (f a).map g) = (as.mapM f).map (List.map g) := by
  induction as with
  | nil => rfl
  | cons a as ih =>
    rw [List.mapM_cons, List.mapM_cons, ih]
    cases f a with
    | error fault => rfl
    | ok b => cases as.mapM f <;> rfl

/-- Each value next to something that its member has. -/
theorem mapM_pair (f : A → Except E B) (g : A → C) (as : List A) :
    (as.mapM fun a => do return (g a, ← f a)) = (as.mapM f).map fun bs => (as.map g).zip bs := by
  induction as with
  | nil => rfl
  | cons a as ih =>
    rw [List.mapM_cons, List.mapM_cons, ih]
    cases f a with
    | error fault => rfl
    | ok b => cases as.mapM f <;> rfl

theorem exists_of_mapM_eq_error {fault : E} (h : as.mapM f = .error fault) :
    ∃ a ∈ as, f a = .error fault := by
  induction as with
  | nil => cases h
  | cons a as ih =>
    rw [List.mapM_cons] at h
    rcases bind_eq_error h with hhead | ⟨c, -, h⟩
    · exact ⟨a, .head as, hhead⟩
    · rcases bind_eq_error h with htail | ⟨cs, -, h⟩
      · obtain ⟨x, hx, hfault⟩ := ih htail
        exact ⟨x, .tail a hx, hfault⟩
      · cases h

end

end QuantumGates
