-- Extensions of circuits where they stand, turn by turn. With an operand that does not change the
-- loop ends as the extension by its members does: with all of them appended, or with those before
-- the first that is no operation. A circuit that is its own operand grows as fast as it is read.
import Mathlib.Logic.Function.Iterate
import QuantumGates.Datum.Store

namespace QuantumGates

/-! ## Appended members -/

/-- The value is an operation. -/
def Datum.IsOperation : Datum → Prop
  | operation _ => True
  | _ => False

namespace Circuit

theorem append_of_not_isOperation {d : Datum} (c : Circuit Float) (hd : ¬ d.IsOperation) :
    c.append d = .error (.notAnOperation d.kind) := by
  cases d with
  | operation op => exact absurd trivial hd
  | _ => rfl

theorem appendAll_operations (c ops : Circuit Float) :
    c.appendAll (ops.map .operation) = (c ++ ops, none) := by
  induction ops generalizing c with
  | nil => simp [appendAll]
  | cons op ops ih =>
    show (c ++ [op]).appendAll (ops.map .operation) = _
    rw [ih, List.append_assoc, List.singleton_append]

theorem appendAll_refused {d : Datum} (c ops : Circuit Float) (rest : List Datum)
    (hd : ¬ d.IsOperation) :
    c.appendAll (ops.map .operation ++ d :: rest) =
      (c ++ ops, some (.notAnOperation d.kind)) := by
  induction ops generalizing c with
  | nil => simp [appendAll, append_of_not_isOperation c hd]
  | cons op ops ih =>
    show (c ++ [op]).appendAll (ops.map .operation ++ d :: rest) = _
    rw [ih, List.append_assoc, List.singleton_append]

end Circuit

/-- Values are operations all of them, or there is a first that is none. -/
theorem operations_or_first_other (ds : List Datum) :
    (∃ ops : Circuit Float, ds = ops.map .operation) ∨
      ∃ (ops : Circuit Float) (d : Datum) (rest : List Datum),
        ds = ops.map .operation ++ d :: rest ∧ ¬ d.IsOperation := by
  induction ds with
  | nil => exact .inl ⟨[], rfl⟩
  | cons d ds ih =>
    cases d with
    | operation op =>
      obtain ⟨ops, rfl⟩ | ⟨ops, e, rest, rfl, he⟩ := ih
      · exact .inl ⟨op :: ops, rfl⟩
      · exact .inr ⟨op :: ops, e, rest, rfl, he⟩
    | _ => exact .inr ⟨[], _, ds, rfl, id⟩

/-! ## The store -/

namespace CircuitStore

variable {s : CircuitStore} {k : Nat} {c : Circuit Float}

theorem content_eq (hk : s[k]? = some c) : s.content k = c := by
  rw [content, hk]
  rfl

theorem content_set (hk : k < s.length) (c : Circuit Float) : content (s.set k c) k = c :=
  content_eq (List.getElem?_set_self hk)

theorem content_set_ne {j : Nat} (h : j ≠ k) (c : Circuit Float) :
    content (s.set k c) j = s.content j := by
  rw [content, content, List.getElem?_set_ne h.symm]

theorem set_content (s : CircuitStore) (k : Nat) : s.set k (s.content k) = s := by
  unfold content
  cases hk : s[k]? with
  | none => exact List.set_eq_of_length_le (List.getElem?_eq_none_iff.mp hk)
  | some c =>
    obtain ⟨hlt, rfl⟩ := List.getElem?_eq_some_iff.mp hk
    exact List.set_getElem_self hlt

theorem lt_length (hk : s[k]? = some c) : k < s.length :=
  (List.getElem?_eq_some_iff.mp hk).1

end CircuitStore

/-! ## Turns of the loop -/

namespace Course

variable {s : CircuitStore} {k i : Nat} {source : Source}

theorem next_of_none (h : source.member? s i = none) :
    (appending s k source i).next = finished s := by
  simp only [next, h]

theorem next_of_operation {op : Operation (Param Float)}
    (h : source.member? s i = some (.operation op)) :
    (appending s k source i).next =
      appending (s.set k (s.content k ++ [op])) k source (i + 1) := by
  simp only [next, h, Circuit.append]

theorem next_of_not_isOperation {d : Datum} (h : source.member? s i = some d)
    (hd : ¬ d.IsOperation) :
    (appending s k source i).next = refused s (.notAnOperation d.kind) := by
  simp only [next, h, Circuit.append_of_not_isOperation _ hd]

/-- The statement has come to its end. -/
def HasEnded : Course → Prop
  | appending .. => False
  | _ => True

theorem HasEnded.iterate {a : Course} (h : a.HasEnded) (n : Nat) : next^[n] a = a := by
  apply Function.iterate_fixed
  cases a with
  | appending => exact h.elim
  | _ => rfl

/-- A course has one end. -/
theorem HasEnded.unique {a : Course} {m n : Nat} (hm : (next^[m] a).HasEnded)
    (hn : (next^[n] a).HasEnded) : next^[m] a = next^[n] a := by
  rcases Nat.le_total m n with h | h
  · rw [← Nat.sub_add_cancel h, Function.iterate_add_apply, hm.iterate]
  · rw [← Nat.sub_add_cancel h, Function.iterate_add_apply, hn.iterate]

theorem eq_of_refused {a b : Course} {s' : CircuitStore} {fault : Fault Float} {m n : Nat}
    (hn : next^[n] a = refused s' fault) (hm : next^[m] a = b) (hb : b.HasEnded) :
    b = refused s' fault := by
  subst hm
  have hfinal : (next^[n] a).HasEnded := by
    rw [hn]
    trivial
  rw [hb.unique hfinal, hn]

/-- The end of the extension of the circuit at a place, from what the circuit is then and from
the fault of the rest. -/
def ended (s : CircuitStore) (k : Nat) : Circuit Float × Option (Fault Float) → Course
  | (c, none) => finished (s.set k c)
  | (c, some fault) => refused (s.set k c) fault

theorem hasEnded_ended (s : CircuitStore) (k : Nat)
    (r : Circuit Float × Option (Fault Float)) : (ended s k r).HasEnded := by
  obtain ⟨c, _ | fault⟩ := r <;> trivial

/-- The circuits at other places than the target stay. -/
def KeepsOthers (s : CircuitStore) (k : Nat) (a : Course) : Prop :=
  (∀ s' target source i, a = appending s' target source i → target = k) ∧
    ∀ j, j ≠ k → a.store[j]? = s[j]?

theorem KeepsOthers.next {a : Course} (h : KeepsOthers s k a) : KeepsOthers s k a.next := by
  cases a with
  | appending s' target source i =>
    obtain rfl := h.1 s' target source i rfl
    cases hmember : source.member? s' i with
    | none =>
      rw [next_of_none hmember]
      exact ⟨nofun, h.2⟩
    | some d =>
      by_cases hd : d.IsOperation
      · cases d with
        | operation op =>
          rw [next_of_operation hmember]
          refine ⟨fun _ _ _ _ heq => (appending.inj heq).2.1.symm, fun j hj => ?_⟩
          exact (List.getElem?_set_ne hj.symm).trans (h.2 j hj)
        | _ => exact hd.elim
      · rw [next_of_not_isOperation hmember hd]
        exact ⟨nofun, h.2⟩
  | finished s' => exact h
  | refused s' fault => exact h

theorem KeepsOthers.iterate {a : Course} (h : KeepsOthers s k a) (n : Nat) :
    KeepsOthers s k (Course.next^[n] a) := by
  induction n with
  | zero => exact h
  | succ n ih =>
    rw [Function.iterate_succ_apply']
    exact ih.next

/-! ## An operand that does not change -/

/-- The loop does what appending the members does, when their source gives the same ones
whatever the circuit at the target is. -/
theorem run_of_members {ds : List Datum} (hk : k < s.length)
    (hread : ∀ c i, source.member? (s.set k c) i = ds[i]?) (c : Circuit Float)
    (done rest : List Datum) (hds : ds = done ++ rest) :
    ∃ n, next^[n] (appending (s.set k c) k source done.length) = ended s k (c.appendAll rest) := by
  induction rest generalizing c done with
  | nil =>
    refine ⟨1, next_of_none ?_⟩
    rw [hread, hds, List.append_nil, List.getElem?_eq_none (Nat.le_refl _)]
  | cons d rest ih =>
    have hmember : source.member? (s.set k c) done.length = some d := by
      rw [hread, hds, List.getElem?_append_right (Nat.le_refl _), Nat.sub_self]
      rfl
    by_cases hd : d.IsOperation
    · cases d with
      | operation op =>
        obtain ⟨n, hn⟩ := ih (c ++ [op]) (done ++ [.operation op]) (by rw [hds]; simp)
        refine ⟨n + 1, ?_⟩
        rw [Function.iterate_succ_apply, next_of_operation hmember,
          CircuitStore.content_set hk, List.set_set]
        rw [List.length_append] at hn
        exact hn
      | _ => exact hd.elim
    · refine ⟨1, ?_⟩
      rw [Function.iterate_one, next_of_not_isOperation hmember hd, Circuit.appendAll,
        Circuit.append_of_not_isOperation c hd]
      rfl

theorem run_of_fixed_source {ds : List Datum} {c : Circuit Float} (hk : s[k]? = some c)
    (hread : ∀ c i, source.member? (s.set k c) i = ds[i]?) :
    ∃ n, next^[n] (appending s k source 0) = ended s k (c.appendAll ds) := by
  have hstart : s.set k c = s := by rw [← CircuitStore.content_eq hk, CircuitStore.set_content]
  have h := run_of_members (CircuitStore.lt_length hk) hread c [] ds rfl
  rwa [hstart] at h

theorem member?_values (s : CircuitStore) (k : Nat) (ds : List Datum) (c : Circuit Float)
    (i : Nat) : (Source.values ds).member? (s.set k c) i = ds[i]? := rfl

/-- Another circuit of the store is read as its operations. -/
theorem member?_stored_ne {j : Nat} (h : j ≠ k) (c : Circuit Float) (i : Nat) :
    (Source.stored j).member? (s.set k c) i = ((s.content j).map Datum.operation)[i]? := by
  rw [Source.member?, CircuitStore.content_set_ne h, List.getElem?_map]

end Course

/-! ## A circuit as its own operand -/

namespace Circuit

variable {own : Circuit Float}

/-- The first operations of a circuit that is repeated for ever. -/
def around (own : Circuit Float) (hc : 0 < own.length) (n : Nat) : Circuit Float :=
  List.ofFn fun i : Fin n => own.get ⟨i.val % own.length, Nat.mod_lt _ hc⟩

theorem getElem?_around (hc : 0 < own.length) {n i : Nat} (hi : i < n) :
    (around own hc n)[i]? = own[i % own.length]? := by
  have hlt : i < (around own hc n).length := by rwa [around, List.length_ofFn]
  rw [List.getElem?_eq_getElem hlt, List.getElem?_eq_getElem (Nat.mod_lt _ hc)]
  simp only [around, List.getElem_ofFn, List.get_eq_getElem]

theorem around_succ (hc : 0 < own.length) (n : Nat) :
    around own hc (n + 1) = around own hc n ++ [own.get ⟨n % own.length, Nat.mod_lt _ hc⟩] := by
  rw [around, List.ofFn_succ_last]
  rfl

/-- After the circuit itself its first operations follow once more, so it goes on for ever. -/
theorem getElem?_append_around (hc : 0 < own.length) (n : Nat) :
    (own ++ around own hc n)[n]? = some (own.get ⟨n % own.length, Nat.mod_lt _ hc⟩) := by
  rcases Nat.lt_or_ge n own.length with h | h
  · rw [List.getElem?_append_left h, List.getElem?_eq_getElem h]
    simp only [List.get_eq_getElem, Nat.mod_eq_of_lt h]
  · have hlt : n - own.length < n := by omega
    rw [List.getElem?_append_right h, getElem?_around hc hlt, ← Nat.mod_eq_sub_mod h,
      List.getElem?_eq_getElem (Nat.mod_lt _ hc), List.get_eq_getElem]

end Circuit

namespace Course

/-- A circuit that is its own operand has grown by one operation after each turn. -/
theorem run_of_itself {s : CircuitStore} {k : Nat} {own : Circuit Float} (hk : s[k]? = some own)
    (hc : 0 < own.length) (n : Nat) :
    next^[n] (appending s k (.stored k) 0) =
      appending (s.set k (own ++ own.around hc n)) k (.stored k) n := by
  have hlt := CircuitStore.lt_length hk
  induction n with
  | zero =>
    have hstart : own ++ own.around hc 0 = s.content k := by
      rw [CircuitStore.content_eq hk]
      simp [Circuit.around]
    rw [hstart, CircuitStore.set_content]
    rfl
  | succ n ih =>
    have hmember : (Source.stored k).member? (s.set k (own ++ own.around hc n)) n =
        some (.operation (own.get ⟨n % own.length, Nat.mod_lt _ hc⟩)) := by
      rw [Source.member?, CircuitStore.content_set hlt, Circuit.getElem?_append_around hc n]
      rfl
    rw [Function.iterate_succ_apply', ih, next_of_operation hmember,
      CircuitStore.content_set hlt, List.set_set, List.append_assoc, ← Circuit.around_succ hc n]

end Course

end QuantumGates
