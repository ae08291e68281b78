-- Words that are an expression, and words that are an operand wherever they stand. An expression
-- in brackets is an operand, and so is one that is a single word, a bracket or a call. Operands
-- with an operator are an expression again, whose tree is the node of the operator over theirs.
import QuantumGates.Proofs.Expression.Extension

namespace QuantumGates

open Node

/-! ## Heads -/

/-- The words that arithmetic may begin with. -/
def opensExpression : List Token → Bool
  | .name id :: _ => !reservedWords.contains id
  | .whole _ :: _ => true
  | .decimal _ :: _ => true
  | .sign s :: _ => [Sign.plus, .minus, .openRound].contains s
  | _ => false

/-- The words that an operand may begin with. -/
def opensOperand : List Token → Bool
  | .name id :: _ => !reservedWords.contains id
  | .whole _ :: _ => true
  | .decimal _ :: _ => true
  | .sign .openRound :: _ => true
  | _ => false

theorem opensExpression_append {ts : List Token} (h : opensExpression ts = true)
    (suffix : List Token) : opensExpression (ts ++ suffix) = true := by
  cases ts with
  | nil => cases h
  | cons t ts => cases t <;> exact h

theorem opensExpression_of_opensOperand {ts : List Token} (h : opensOperand ts = true) :
    opensExpression ts = true := by
  cases ts with
  | nil => cases h
  | cons t ts =>
    cases t with
    | sign s =>
      cases s with
      | openRound => rfl
      | _ => cases h
    | _ => exact h

/-- No sign stands before an operand. -/
theorem unaryNode_of_opensOperand {ts rest suffix : List Token} {s : Sign}
    (h : opensOperand ts = true) (heq : ts ++ suffix = .sign s :: rest) : unaryNode s = none := by
  cases ts with
  | nil => cases h
  | cons t ts =>
    obtain ⟨rfl, -⟩ := List.cons.inj heq
    cases s with
    | openRound => rfl
    | _ => cases h

section

variable {n : ℕ} {ts rest : List Token} {x : Node}

/-- What is read as arithmetic begins as arithmetic may. -/
theorem opensExpression_of_read {g : Goal} (hg : g.ofArithmetic = true)
    (hword : g.takesWord = true) (h : read n g ts = some (x, rest)) (hx : x.Plain) :
    opensExpression ts = true := by
  induction n generalizing g x rest with
  | zero => cases h
  | succ n ih =>
    cases g with
    | named => exact ih rfl rfl (read_named h hx).2 hx
    | item => exact ih rfl rfl (read_item h hx).2 hx
    | expression => exact ih rfl rfl (read_expression h hx).2.1 hx
    | chain k =>
      by_cases h2 : k = 2
      · subst h2
        exact ih rfl rfl (read_chain_two h hx).2 hx
      by_cases h10 : k = 10
      · subst h10
        exact ih rfl rfl (read_chain_ten h) hx
      · obtain ⟨left, r, hleft, h⟩ := read_chain h2 h10 h
        exact ih rfl rfl hleft (plain_of_chainFrom h hx)
    | factor =>
      rcases read_factor h hx with ⟨s, o, r, y, rfl, ho, -, -⟩ | ⟨-, h⟩
      · cases s <;> cases ho <;> rfl
      · exact ih rfl rfl h hx
    | power =>
      obtain ⟨-, base, r, hbase, ⟨-, rfl, -⟩ | ⟨r', e, -, -, rfl⟩⟩ := read_power h hx
      · exact ih rfl rfl hbase hx
      · rw [plain_binary] at hx
        exact ih rfl rfl hbase hx.1
    | primary =>
      obtain ⟨y, r, hy, h⟩ := read_primary h
      exact ih rfl rfl hy (plain_of_primaryFrom h hx)
    | atom =>
      rcases read_atom h hx with ⟨id, rfl, hid, rfl⟩ | ⟨k, rfl, rfl⟩ | ⟨d, rfl, rfl⟩ | ⟨r, rfl, -⟩
      · show (!reservedWords.contains id) = true
        rw [hid]
        rfl
      · rfl
      · rfl
      · rfl
    | chainFrom k left => cases hword
    | primaryFrom left => cases hword
    | target => cases hg
    | slice => cases hg
    | lambda => cases hg
    | loops => cases hg
    | entry => cases hg

theorem afterWord?_of_opens {w : String} (h : opensExpression ts = true)
    (hw : reservedWords.contains w = true) : afterWord? w ts = none := by
  cases ts with
  | nil => rfl
  | cons t ts =>
    cases t with
    | name id =>
      have hne : id ≠ w := by
        rintro rfl
        rw [opensExpression, hw] at h
        cases h
      exact if_neg hne
    | _ => rfl

theorem startsItem_of_opens (h : opensExpression ts = true) : startsItem ts = true := by
  unfold startsItem
  split
  · cases h
  · have hyield : (!reservedWords.contains "yield") = true := h
    exact absurd hyield (by decide)
  · rfl

theorem afterSign?_of_opens {s : Sign} (h : opensExpression ts = true)
    (hs : [Sign.plus, .minus, .openRound].contains s = false) : afterSign? s ts = none := by
  cases ts with
  | nil => rfl
  | cons t ts =>
    cases t with
    | sign t =>
      have hne : t ≠ s := by
        rintro rfl
        rw [opensExpression, hs] at h
        cases h
      exact if_neg hne
    | _ => rfl

/-- Words of arithmetic name nothing in passing. -/
theorem startsDefinition_of_plain (h : ∀ t ∈ ts, t.isPlain = true) :
    startsDefinition ts = false := by
  unfold startsDefinition
  split
  · exact absurd (h (.sign .define) (by simp)) (by decide)
  · rfl

/-- Words of arithmetic begin an argument by its place. -/
theorem startsPositional_of_opens (hopens : opensExpression ts = true)
    (h : ∀ t ∈ ts, t.isPlain = true) : startsPositional ts = true := by
  unfold startsPositional
  split
  · cases hopens
  · cases hopens
  · exact absurd (h (.sign .assign) (by simp)) (by decide)
  · rfl

end

/-! ## Expressions and operands -/

/-- The words are an expression with this tree, before anything at which an expression ends. -/
structure Expresses (ts : List Token) (x : Node) : Prop where
  opens : opensExpression ts = true
  balanced : Balanced ts
  reads : ∀ m suffix, 24 * (ts.length + 2) ≤ m → endsExpression suffix = true →
    read m .expression (ts ++ suffix) = some (x, suffix)

/-- The words are an operand with this tree, before anything at which an operand ends. -/
structure Operand (ts : List Token) (x : Node) : Prop where
  opens : opensOperand ts = true
  balanced : Balanced ts
  reads : ∀ m suffix, 24 * ts.length + 34 ≤ m → endsOperand suffix = true →
    read m .primary (ts ++ suffix) = some (x, suffix)

theorem beginsWithSign_of_endsOperand {suffix : List Token} (h : endsOperand suffix = true) :
    beginsWithSign suffix = true := by
  cases suffix with
  | nil => rfl
  | cons t r =>
    cases t with
    | sign s => rfl
    | _ => cases h

section

variable {ts us suffix : List Token} {x y : Node}

/-- A plain tree of a whole list of words is the tree of an expression. -/
theorem expresses_of_readAll? (h : readAll? ts = some x) (hx : x.Plain) : Expresses ts x := by
  unfold readAll? at h
  obtain ⟨⟨xs, comma, rest⟩, hlist, h⟩ := Option.bind_eq_some_iff.mp h
  simp only at h
  split at h
  · cases h
  · rename_i hrest
    have hnil : rest = [] := by simpa using hrest
    subst hnil
    split at h
    · cases h
      unfold commaList at hlist
      obtain ⟨⟨y, r⟩, hy, hlist⟩ := Option.bind_eq_some_iff.mp hlist
      simp only at hlist
      split at hlist
      · cases hlist
        obtain ⟨used, hused, hu⟩ := readsOn _ _ _ _ _ rfl hy hx
        rw [List.append_nil] at hused
        subst hused
        refine ⟨opensExpression_of_read rfl rfl hy hx, hu.balanced, fun m suffix hm hend => ?_⟩
        have hon := hu.goesOn m suffix hm
          (beginsWithSign_of_endsOperand (endsOperand_of_endsExpression hend)) fun _ => hend
        rwa [List.append_nil, List.nil_append] at hon
      · split at hlist
        · cases hlist
        · obtain ⟨⟨zs, c, r'⟩, -, hlist⟩ := Option.bind_eq_some_iff.mp hlist
          cases hlist
    · cases h
      exact absurd hx (not_plain_other _ _)

/-- An expression is the tree of the whole list of its words. -/
theorem Expresses.readAll? (h : Expresses ts x) : readAll? ts = some x := by
  have hread := h.reads (24 * (ts.length + 2)) [] (Nat.le_refl _) rfl
  rw [List.append_nil] at hread
  have hlist : commaList (read (24 * (ts.length + 2)) .expression) [] (ts.length + 1) ts =
      some ([x], false, []) := by
    unfold commaList
    simp only [hread, Option.bind_eq_bind, Option.bind_some]
    rfl
  unfold QuantumGates.readAll?
  simp only [hlist, Option.bind_eq_bind, Option.bind_some]
  rfl

/-- An expression in brackets is an operand with the same tree. -/
theorem Expresses.brackets (h : Expresses ts x) (hx : x.Plain) :
    Operand (.sign .openRound :: ts ++ [.sign .closeRound]) x := by
  refine ⟨rfl, h.balanced.brackets, fun m suffix hm hend => ?_⟩
  rw [List.length_append, List.length_cons, List.length_singleton] at hm
  obtain ⟨m, rfl⟩ : ∃ k, m = k + 5 := ⟨m - 5, by omega⟩
  have hread := h.reads (m + 1) (.sign .closeRound :: suffix) (by omega) rfl
  have hopens := opensExpression_append h.opens (.sign .closeRound :: suffix)
  have hdef : startsDefinition (ts ++ .sign .closeRound :: suffix) = false := by
    refine startsDefinition_append (startsDefinition_of_plain h.balanced.plain) fun _ => rfl
  have hatom : read (m + 4) .atom (.sign .openRound :: (ts ++ .sign .closeRound :: suffix)) =
      some (x, suffix) :=
    readRound_of_item (startsItem_of_opens hopens) hx
      (read_item_of (afterSign?_of_opens hopens (by decide)) (read_named_of hdef hread))
  rw [List.cons_append, List.cons_append, List.append_assoc, List.singleton_append]
  exact read_primary_of hatom (readPrimaryFrom_of_ends (endsPrimary_of_endsOperand hend))

end

end QuantumGates
