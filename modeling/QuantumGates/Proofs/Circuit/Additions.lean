-- What the sum of a circuit and a summand leaves in the store, in place or as a new circuit: at
-- the end, after a refusal, and while it goes on. Only a circuit that holds something and is
-- extended by itself goes on for ever; the sum that makes a new circuit copies it before.
import QuantumGates.Proofs.Circuit.Extension

namespace QuantumGates

/-- The operations that an operand of the right kind holds. -/
def Summand.Holds (s : CircuitStore) (ops : Circuit Float) : Summand → Prop
  | stored place => s[place]? = some ops
  | value d =>
    match d with
    | .operation op => ops = [op]
    | .circuit held => ops = held
    | .list ds | .tuple ds => ds = ops.map .operation
    | _ => False

namespace Circuit

theorem extend_of_holds {s : CircuitStore} {ops : Circuit Float} {d : Datum} (c : Circuit Float)
    (h : (Summand.value d).Holds s ops) : c.extend d = (c ++ ops, none) := by
  cases d with
  | operation op => exact congrArg (fun more => (c ++ more, none)) (Eq.symm h)
  | circuit held => exact congrArg (fun more => (c ++ more, none)) (Eq.symm h)
  | list ds =>
    rw [show ds = ops.map .operation from h]
    exact appendAll_operations c ops
  | tuple ds =>
    rw [show ds = ops.map .operation from h]
    exact appendAll_operations c ops
  | _ => exact h.elim

theorem appendAll_eq_refused {c c' : Circuit Float} {ds : List Datum} {fault : Fault Float}
    (h : c.appendAll ds = (c', some fault)) :
    ∃ (ops : Circuit Float) (d : Datum) (rest : List Datum),
      ds = ops.map .operation ++ d :: rest ∧ ¬ d.IsOperation ∧
        fault = .notAnOperation d.kind ∧ c' = c ++ ops := by
  obtain ⟨ops, rfl⟩ | ⟨ops, d, rest, rfl, hd⟩ := operations_or_first_other ds
  · rw [appendAll_operations] at h
    cases h
  · rw [appendAll_refused c ops rest hd] at h
    cases h
    exact ⟨ops, d, rest, rfl, hd, rfl, rfl⟩

end Circuit

namespace CircuitStore

open Course

variable {s : CircuitStore} {k : Nat} {c : Circuit Float}

/-! ## Where an extension ends -/

/-- A value extends the circuit at a place as it extends the circuit by itself. -/
theorem extend_value (hk : s[k]? = some c) (d : Datum) :
    ∃ n, next^[n] (s.extend k (.value d)) = ended s k (c.extend d) := by
  cases d with
  | operation op => exact run_of_fixed_source hk (member?_values s k [.operation op])
  | circuit held =>
    obtain ⟨n, hn⟩ := run_of_fixed_source hk (member?_values s k (held.map .operation))
    rw [Circuit.appendAll_operations] at hn
    exact ⟨n, hn⟩
  | list ds => exact run_of_fixed_source hk (member?_values s k ds)
  | tuple ds => exact run_of_fixed_source hk (member?_values s k ds)
  | _ =>
    refine ⟨0, ?_⟩
    show refused s .wrongType = refused (s.set k c) .wrongType
    rw [← content_eq hk, set_content]

theorem extend_stored_ne {j : Nat} (hk : s[k]? = some c) (hj : j ≠ k) :
    ∃ n, next^[n] (s.extend k (.stored j)) = finished (s.set k (c ++ s.content j)) := by
  obtain ⟨n, hn⟩ := run_of_fixed_source hk (member?_stored_ne hj)
  rw [Circuit.appendAll_operations] at hn
  exact ⟨n, hn⟩

/-- There is nothing to read in an empty circuit, itself included. -/
theorem extend_stored_empty (hk : s[k]? = some []) :
    ∃ n, next^[n] (s.extend k (.stored k)) = finished s := by
  refine ⟨1, next_of_none ?_⟩
  rw [Source.member?, content_eq hk]
  rfl

theorem extend_of_holds {x : Summand} {ops : Circuit Float} (hk : s[k]? = some c)
    (hx : x.Holds s ops) (hother : x ≠ .stored k ∨ c = []) :
    ∃ n, next^[n] (s.extend k x) = finished (s.set k (c ++ ops)) := by
  cases x with
  | value d =>
    have h := extend_value hk d
    rwa [Circuit.extend_of_holds c hx] at h
  | stored j =>
    by_cases hj : j = k
    · subst hj
      obtain rfl : c = [] := hother.resolve_left fun hne => hne rfl
      obtain rfl : [] = ops := Option.some.inj (hk.symm.trans hx)
      have hstays : s.set j ([] ++ []) = s := by
        rw [List.append_nil, ← content_eq hk, set_content]
      rw [hstays]
      exact extend_stored_empty hk
    · rw [← content_eq hx]
      exact extend_stored_ne hk hj

/-! ## A new circuit -/

theorem source?_of_holds {x : Summand} {ops : Circuit Float} (hx : x.Holds s ops) :
    ∃ source, x.source? = some source := by
  cases x with
  | stored j => exact ⟨_, rfl⟩
  | value d =>
    cases d with
    | operation | circuit | list | tuple => exact ⟨_, rfl⟩
    | _ => exact hx.elim

/-- A new circuit at the end of the store is none of the operands. -/
theorem holds_append {x : Summand} {ops : Circuit Float} (hx : x.Holds s ops)
    (c : Circuit Float) : x.Holds (s ++ [c]) ops ∧ x ≠ .stored s.length := by
  cases x with
  | value d => exact ⟨hx, nofun⟩
  | stored j =>
    have hj := lt_length hx
    refine ⟨(List.getElem?_append_left hj).trans hx, fun h => ?_⟩
    exact Nat.ne_of_lt hj (Summand.stored.inj h)

theorem plus_eq_extend {x : Summand} {source : Source} (h : x.source? = some source)
    (left : Nat) : s.plus left x = extend (s ++ [s.content left]) s.length x := by
  rw [plus, extend, h]

theorem plus_of_holds {x : Summand} {ops : Circuit Float} (hk : s[k]? = some c)
    (hx : x.Holds s ops) : ∃ n, next^[n] (s.plus k x) = finished (s ++ [c ++ ops]) := by
  obtain ⟨source, hsource⟩ := source?_of_holds hx
  obtain ⟨hheld, hne⟩ := holds_append hx c
  have h := extend_of_holds (k := s.length) (List.getElem?_concat_length) hheld (.inl hne)
  rw [List.set_append_right _ _ (Nat.le_refl _), Nat.sub_self] at h
  rw [plus_eq_extend hsource, content_eq hk]
  exact h

theorem plus_keeps (s : CircuitStore) (left : Nat) (x : Summand) (n : Nat) {place : Nat}
    (hplace : place < s.length) : (next^[n] (s.plus left x)).store[place]? = s[place]? := by
  cases hsource : x.source? with
  | none =>
    have hplus : s.plus left x = refused s .wrongType := by rw [plus, hsource]
    have hended : (refused s .wrongType).HasEnded := trivial
    rw [hplus, hended.iterate]
    rfl
  | some source =>
    have hstart : KeepsOthers (s ++ [s.content left]) s.length (s.plus left x) := by
      rw [plus, hsource]
      exact ⟨fun _ _ _ _ heq => (appending.inj heq).2.1.symm, fun _ _ => rfl⟩
    rw [(hstart.iterate n).2 place (Nat.ne_of_lt hplace), List.getElem?_append_left hplace]

/-! ## Refusals -/

theorem extend_refused {x : Summand} {fault : Fault Float} {s' : CircuitStore} {n : Nat}
    (hk : s[k]? = some c) (h : next^[n] (s.extend k x) = refused s' fault) :
    ∃ d c', x = .value d ∧ c.extend d = (c', some fault) ∧ s' = s.set k c' := by
  cases x with
  | value d =>
    obtain ⟨m, hm⟩ := extend_value hk d
    have hend := eq_of_refused h hm (hasEnded_ended s k _)
    cases hextend : c.extend d with
    | mk c' rest =>
      rw [hextend] at hend
      cases rest with
      | none => cases hend
      | some fault' =>
        obtain ⟨rfl, rfl⟩ := refused.inj hend
        exact ⟨d, c', rfl, hextend, rfl⟩
  | stored j =>
    by_cases hj : j = k
    · subst hj
      rcases Nat.eq_zero_or_pos c.length with hc | hc
      · obtain rfl := List.eq_nil_of_length_eq_zero hc
        obtain ⟨m, hm⟩ := extend_stored_empty hk
        cases eq_of_refused h hm trivial
      · cases h.symm.trans (run_of_itself hk hc n)
    · obtain ⟨m, hm⟩ := extend_stored_ne hk hj
      cases eq_of_refused h hm trivial

end CircuitStore

/-! ## What a sum leaves -/

section

open Course

variable {s : CircuitStore} {k : Nat} {c : Circuit Float}

/-- Just the extensions by a list or tuple with a member that is no operation, and by an operand of
another kind, are refused. The members before the first such member stay, and nothing of another
operand. A sum keeps every circuit that there was, at each turn. -/
theorem refused_extension (hk : s[k]? = some c) (x : Summand) :
    (∀ (s' : CircuitStore) (fault : Fault Float),
      (∃ n, next^[n] (s.extend k x) = refused s' fault) ↔
        (∃ (ops : Circuit Float) (d : Datum) (rest : List Datum),
          (x = .value (.list (ops.map .operation ++ d :: rest)) ∨
            x = .value (.tuple (ops.map .operation ++ d :: rest))) ∧
          ¬ d.IsOperation ∧ fault = .notAnOperation d.kind ∧ s' = s.set k (c ++ ops)) ∨
        x.source? = none ∧ fault = .wrongType ∧ s' = s) ∧
    ∀ (n left place : Nat), place < s.length →
      (next^[n] (s.plus left x)).store[place]? = s[place]? := by
  refine ⟨fun s' fault => ⟨?_, ?_⟩, fun n left place => s.plus_keeps left x n⟩
  · rintro ⟨n, h⟩
    obtain ⟨d, c', rfl, hextend, rfl⟩ := CircuitStore.extend_refused hk h
    have hstays : s.set k c = s := by
      rw [← CircuitStore.content_eq hk, CircuitStore.set_content]
    cases d with
    | operation | circuit => cases hextend
    | list ds =>
      obtain ⟨ops, d, rest, rfl, hd, hfault, rfl⟩ := Circuit.appendAll_eq_refused hextend
      exact .inl ⟨ops, d, rest, .inl rfl, hd, hfault, rfl⟩
    | tuple ds =>
      obtain ⟨ops, d, rest, rfl, hd, hfault, rfl⟩ := Circuit.appendAll_eq_refused hextend
      exact .inl ⟨ops, d, rest, .inr rfl, hd, hfault, rfl⟩
    | _ =>
      cases hextend
      exact .inr ⟨rfl, rfl, hstays⟩
  · rintro (⟨ops, d, rest, hx, hd, rfl, rfl⟩ | ⟨hsource, rfl, rfl⟩)
    · have hrun (e : Datum) (he : c.extend e = c.appendAll (ops.map .operation ++ d :: rest)) :
          ∃ n, next^[n] (s.extend k (.value e)) =
            refused (s.set k (c ++ ops)) (.notAnOperation d.kind) := by
        have h := CircuitStore.extend_value hk e
        rwa [he, Circuit.appendAll_refused c ops rest hd] at h
      rcases hx with rfl | rfl
      · exact hrun _ rfl
      · exact hrun _ rfl
    · refine ⟨0, ?_⟩
      show CircuitStore.extend _ k x = _
      rw [CircuitStore.extend, hsource]

theorem refused_extension_by_tuple :
    [([.cnot 0 1] : Circuit Float)][0]? = some [.cnot 0 1] ∧
    (∃ n, next^[n] (CircuitStore.extend [[.cnot 0 1]] 0
        (.value (.tuple [.operation (.hadamard 0), .integer 5, .operation (.hadamard 1)]))) =
      refused [[.cnot 0 1, .hadamard 0]] (.notAnOperation .integer)) ∧
    ∀ n, (next^[n] (CircuitStore.plus [[.cnot 0 1]] 0
        (.value (.tuple [.operation (.hadamard 0), .integer 5, .operation (.hadamard 1)])))).store[0]? =
      some [.cnot 0 1] := by
  have hk : [([.cnot 0 1] : Circuit Float)][0]? = some [.cnot 0 1] := rfl
  have h := refused_extension hk
    (.value (.tuple [.operation (.hadamard 0), .integer 5, .operation (.hadamard 1)]))
  refine ⟨hk, (h.1 _ _).mpr (.inl ?_), fun n => h.2 n 0 0 (by decide)⟩
  exact ⟨[.hadamard 0], .integer 5, [.operation (.hadamard 1)], .inr rfl, id, rfl, rfl⟩

/-- The operations before the refused member stay. -/
theorem refused_extension_changes :
    ¬ ∀ (s s' : CircuitStore) (k n : Nat) (x : Summand) (fault : Fault Float),
      next^[n] (s.extend k x) = refused s' fault → s' = s := by
  intro h
  have hlist := h [[]] [[.hadamard 0]] 0 2
    (.value (.list [.operation (.hadamard 0), .integer 5])) (.notAnOperation .integer) rfl
  cases hlist

/-- The operations that the operand holds follow those of the circuit, in place or in a new one;
but a circuit that is not empty and is extended by itself never comes to an end. -/
theorem extension_by_operations {x : Summand} {own ops : Circuit Float}
    (hk : s[k]? = some own) (hx : x.Holds s ops) :
    (x ≠ .stored k ∨ own = [] →
      ∃ n, next^[n] (s.extend k x) = finished (s.set k (own ++ ops))) ∧
    (x = .stored k → own ≠ [] → ∀ n, ∃ more : Circuit Float,
      more.length = n ∧ (∀ i < n, more[i]? = own[i % own.length]?) ∧
      next^[n] (s.extend k x) = appending (s.set k (own ++ more)) k (.stored k) n) ∧
    ∃ n, next^[n] (s.plus k x) = finished (s ++ [own ++ ops]) := by
  refine ⟨CircuitStore.extend_of_holds hk hx, ?_, CircuitStore.plus_of_holds hk hx⟩
  rintro rfl hne n
  have hc := List.length_pos_iff.mpr hne
  exact ⟨own.around hc n, List.length_ofFn, fun i hi => Circuit.getElem?_around hc hi,
    run_of_itself hk hc n⟩

theorem extension_by_neighbour :
    [([.hadamard 0] : Circuit Float), [.cnot 0 1]][0]? = some [.hadamard 0] ∧
    (Summand.stored 1).Holds [[.hadamard 0], [.cnot 0 1]] [.cnot 0 1] ∧
    ∃ n, next^[n] (CircuitStore.extend [[.hadamard 0], [.cnot 0 1]] 0 (.stored 1)) =
      finished [[.hadamard 0, .cnot 0 1], [.cnot 0 1]] := by
  have hk : [([.hadamard 0] : Circuit Float), [.cnot 0 1]][0]? = some [.hadamard 0] := rfl
  have hx : (Summand.stored 1).Holds [[.hadamard 0], [.cnot 0 1]] [.cnot 0 1] := rfl
  have hne : Summand.stored 1 ≠ .stored 0 := fun h => by cases h
  exact ⟨hk, hx, (extension_by_operations hk hx).1 (.inl hne)⟩

theorem extension_by_itself_goes_on :
    ¬ ∃ n, (next^[n] (CircuitStore.extend [[.hadamard 0]] 0 (.stored 0))).HasEnded := by
  rintro ⟨n, h⟩
  have hk : [([.hadamard 0] : Circuit Float)][0]? = some [.hadamard 0] := rfl
  have hgoes : next^[n] (CircuitStore.extend [[.hadamard 0]] 0 (.stored 0)) = _ :=
    run_of_itself hk (by decide) n
  rw [hgoes] at h
  exact h

end

end QuantumGates
