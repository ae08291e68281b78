-- Expressions that need no brackets. A single word, a bracket that closes with the last word, and
-- a call whose bracket does so are read by the innermost rules alone: no operator can follow them
-- inside the expression, so they are operands as they stand.
import QuantumGates.Proofs.Expression.Operations

namespace QuantumGates

open Node

/-- The words are a single one, a bracket, or a call. -/
def isAtomicWords : List Token → Bool
  | [.name _] | [.whole _] | [.decimal _] => true
  | .sign .openRound :: ts => closesLast 1 ts
  | .name _ :: .sign .openRound :: ts => closesLast 1 ts
  | _ => false

section

variable {n k : ℕ} {ts us rest : List Token} {x : Node}

/-! ## The first operand -/

/-- The rules read one operand at first, and it is the whole tree if nothing follows it. -/
theorem exists_factor_of_chain {d : ℕ} (hd : k + d = 10) (hx : x.Plain)
    (h : read (n + d + 1) (.chain k) ts = some (x, rest)) :
    ∃ y r, y.Plain ∧ read n .factor ts = some (y, r) ∧ (r = [] → x = y ∧ rest = []) := by
  induction d generalizing k x rest with
  | zero =>
    obtain rfl : k = 10 := by omega
    exact ⟨x, rest, hx, read_chain_ten h, fun hnil => ⟨rfl, hnil⟩⟩
  | succ d ih =>
    by_cases h2 : k = 2
    · subst h2
      exact ih (by omega) hx (read_chain_two h hx).2
    · obtain ⟨left, r, hleft, h⟩ := read_chain h2 (by omega) h
      obtain ⟨y, r', hy, hread, hnil⟩ := ih (by omega) (plain_of_chainFrom h hx) hleft
      refine ⟨y, r', hy, hread, fun hr => ?_⟩
      obtain ⟨rfl, rfl⟩ := hnil hr
      rcases read_chainFrom h with ⟨-, rfl, rfl⟩ | ⟨join, q, right, q', hjoin, -⟩
      · exact ⟨rfl, rfl⟩
      · rw [joinAt?_of_endsExpression rfl k] at hjoin
        cases hjoin

/-- An expression without a sign before it begins with an operand. -/
theorem exists_primary_of_expression (hopens : opensOperand ts = true) (hx : x.Plain)
    (h : read (n + 14) .expression ts = some (x, [])) :
    ∃ y r, y.Plain ∧ read n .primary ts = some (y, r) ∧ (r = [] → x = y) := by
  obtain ⟨y, r, hy, hfactor, hnil⟩ :=
    exists_factor_of_chain (n := n + 2) (Nat.zero_add 10) hx (read_expression h hx).2.1
  rcases read_factor hfactor hy with ⟨s, o, r', z, rfl, ho, -⟩ | ⟨-, hpower⟩
  · have hno : unaryNode s = none :=
      unaryNode_of_opensOperand hopens (List.append_nil (.sign s :: r'))
    rw [hno] at ho
    cases ho
  · obtain ⟨-, base, r', hbase, ⟨-, rfl, rfl⟩ | ⟨r'', e, rfl, -, rfl⟩⟩ := read_power hpower hy
    · exact ⟨y, r, hy, hbase, fun hr => (hnil hr).1⟩
    · rw [plain_binary] at hy
      exact ⟨base, _, hy.1, hbase, nofun⟩

/-- An expression that its first operand uses up is an operand. -/
theorem Expresses.operand_of_primary (h : Expresses ts x) (hx : x.Plain)
    (hopens : opensOperand ts = true)
    (hall : ∀ n y r, y.Plain → read n .primary ts = some (y, r) → r = []) : Operand ts x := by
  have hread := h.reads (24 * ts.length + 34 + 14) [] (by omega) rfl
  rw [List.append_nil] at hread
  obtain ⟨y, r, hy, hprimary, hnil⟩ := exists_primary_of_expression hopens hx hread
  obtain rfl := hall _ y r hy hprimary
  obtain rfl := hnil rfl
  obtain ⟨used, hused, hu⟩ := readsOn _ _ _ _ _ rfl hprimary hy
  rw [List.append_nil] at hused
  subst hused
  refine ⟨hopens, h.balanced, fun m suffix hm hend => ?_⟩
  have hon := hu.goesOn m suffix hm (beginsWithSign_of_endsOperand hend) fun _ => hend
  rwa [List.append_nil, List.nil_append] at hon

/-! ## Words that close at their end -/

/-- Nothing follows a primary that is at the end of the words. -/
theorem eq_nil_of_primaryFrom_nil {left : Node}
    (h : read n (.primaryFrom left) [] = some (x, rest)) (hx : x.Plain) : rest = [] := by
  obtain ⟨m, rfl⟩ := read_pos h
  rcases read_primaryFrom h hx with ⟨-, -, hrest⟩ | ⟨r, xs, r', hcons, -⟩
  · exact hrest
  · cases hcons

/-- Balanced words up to the bracket with which the words close are all the words. -/
theorem eq_nil_of_closesLast {used r : List Token} (hbal : Balanced used)
    (h : closesLast 1 (used ++ .sign .closeRound :: r) = true) : r = [] := by
  rw [hbal.closes 1 _ (by omega), closesLast, if_pos rfl] at h
  exact List.isEmpty_iff.mp h

theorem primary_uses_all (hatomic : isAtomicWords ts = true) (hx : x.Plain)
    (h : read n .primary ts = some (x, rest)) : rest = [] := by
  obtain ⟨m, rfl⟩ := read_pos h
  obtain ⟨y, r, hatom, hfrom⟩ := read_primary h
  have hy := plain_of_primaryFrom hfrom hx
  obtain ⟨p, rfl⟩ := read_pos hatom
  rcases read_atom hatom hy with ⟨id, rfl, -, -⟩ | ⟨i, rfl, -⟩ | ⟨d, rfl, -⟩ | ⟨us, rfl, -, hitem⟩
  · rcases read_primaryFrom hfrom hx with ⟨hends, -, rfl⟩ |
      ⟨us, xs, r', rfl, hxs, hargs, hcall⟩
    · cases rest with
      | nil => rfl
      | cons t rest =>
        cases t with
        | sign s =>
          cases s with
          | openRound => cases hends
          | _ => cases hatomic
        | _ => cases hatomic
    · obtain ⟨used, rfl, hbal, -⟩ := readsOn_arguments (readsOn p) hargs hxs
      obtain rfl := eq_nil_of_closesLast hbal hatomic
      exact eq_nil_of_primaryFrom_nil hcall hx
  · cases r with
    | nil => exact eq_nil_of_primaryFrom_nil hfrom hx
    | cons t r => cases hatomic
  · cases r with
    | nil => exact eq_nil_of_primaryFrom_nil hfrom hx
    | cons t r => cases hatomic
  · obtain ⟨used, rfl, hu⟩ := readsOn p _ _ _ _ rfl hitem hy
    obtain rfl := eq_nil_of_closesLast hu.balanced hatomic
    exact eq_nil_of_primaryFrom_nil hfrom hx

theorem opensOperand_of_isAtomicWords (hopens : opensExpression ts = true)
    (h : isAtomicWords ts = true) : opensOperand ts = true := by
  cases ts with
  | nil => cases h
  | cons t ts =>
    cases t with
    | sign s =>
      cases s with
      | openRound => rfl
      | _ => cases h
    | _ => exact hopens

/-- An expression that is a single word, a bracket or a call is an operand. -/
theorem Expresses.operand (h : Expresses ts x) (hx : x.Plain) (hatomic : isAtomicWords ts = true) :
    Operand ts x :=
  h.operand_of_primary hx (opensOperand_of_isAtomicWords h.opens hatomic)
    fun _ _ _ hy hread => primary_uses_all hatomic hy hread

/-! ## Carets -/

theorem closesLast_caretAsPower (depth : ℕ) (ts : List Token) :
    closesLast depth (ts.map Token.caretAsPower) = closesLast depth ts := by
  induction ts generalizing depth with
  | nil => rfl
  | cons t ts ih =>
    cases t with
    | sign s =>
      cases s with
      | openRound => exact ih (depth + 1)
      | closeRound =>
        show (if depth = 1 then (ts.map Token.caretAsPower).isEmpty
          else closesLast (depth - 1) (ts.map Token.caretAsPower)) = _
        rw [ih, List.isEmpty_map]
        rfl
      | _ => exact ih depth
    | _ => exact ih depth

theorem isAtomicWords_caretAsPower (ts : List Token) :
    isAtomicWords (ts.map Token.caretAsPower) = isAtomicWords ts := by
  cases ts with
  | nil => rfl
  | cons t ts =>
    cases t with
    | sign s =>
      cases s with
      | openRound => exact closesLast_caretAsPower 1 ts
      | _ => rfl
    | name id =>
      cases ts with
      | nil => rfl
      | cons u ts =>
        cases u with
        | sign s =>
          cases s with
          | openRound => exact closesLast_caretAsPower 1 ts
          | _ => rfl
        | _ => rfl
    | _ => cases ts <;> rfl

end

end QuantumGates
