-- What the rules of the grammar look at before they go on. Each of them looks at one or two words
-- ahead. What they do not find there, they do not find either when the list of words goes on with
-- a sign at which an expression ends. The words of arithmetic hold their brackets in pairs.
import Mathlib.Data.Nat.Notation
import QuantumGates.Proofs.Expression.Rules

namespace QuantumGates

open Node

/-! ## Words of arithmetic -/

/-- The words that arithmetic may hold. -/
def Token.isPlain : Token → Bool
  | .name _ | .whole _ | .decimal _ => true
  | .sign s =>
    [Sign.plus, .minus, .star, .slash, .power, .caret, .openRound, .closeRound, .comma].contains s
  | _ => false

/-- Whether the round bracket that is open closes with the last word. -/
def closesLast : ℕ → List Token → Bool
  | _, [] => false
  | depth, .sign .openRound :: ts => closesLast (depth + 1) ts
  | depth, .sign .closeRound :: ts => if depth = 1 then ts.isEmpty else closesLast (depth - 1) ts
  | depth, _ :: ts => closesLast depth ts

/-- Words of arithmetic with their round brackets in pairs. -/
structure Balanced (ts : List Token) : Prop where
  plain : ∀ t ∈ ts, t.isPlain = true
  closes : ∀ depth r, 0 < depth → closesLast depth (ts ++ r) = closesLast depth r

theorem balanced_nil : Balanced [] := ⟨by simp, fun _ _ _ => rfl⟩

theorem Balanced.append {ts us : List Token} (ht : Balanced ts) (hu : Balanced us) :
    Balanced (ts ++ us) := by
  refine ⟨fun t hmem => ?_, fun depth r hdepth => ?_⟩
  · rcases List.mem_append.mp hmem with h | h
    · exact ht.plain t h
    · exact hu.plain t h
  · rw [List.append_assoc, ht.closes depth _ hdepth, hu.closes depth r hdepth]

theorem balanced_singleton {t : Token} (hplain : t.isPlain = true)
    (hopen : t ≠ .sign .openRound) (hclose : t ≠ .sign .closeRound) : Balanced [t] := by
  refine ⟨fun u hmem => ?_, fun depth r _ => ?_⟩
  · rw [List.mem_singleton] at hmem
    rw [hmem, hplain]
  · show closesLast depth (t :: r) = _
    cases t with
    | sign s =>
      cases s with
      | openRound => exact absurd rfl hopen
      | closeRound => exact absurd rfl hclose
      | _ => rfl
    | _ => rfl

theorem Balanced.cons {t : Token} {ts : List Token} (ht : Balanced ts)
    (hplain : t.isPlain = true) (hopen : t ≠ .sign .openRound) (hclose : t ≠ .sign .closeRound) :
    Balanced (t :: ts) := (balanced_singleton hplain hopen hclose).append ht

theorem Balanced.brackets {ts : List Token} (h : Balanced ts) :
    Balanced (.sign .openRound :: ts ++ [.sign .closeRound]) := by
  refine ⟨fun t hmem => ?_, fun depth r hdepth => ?_⟩
  · rw [List.mem_append, List.mem_cons, List.mem_singleton] at hmem
    rcases hmem with (rfl | h') | rfl
    · rfl
    · exact h.plain t h'
    · rfl
  · rw [List.cons_append, List.cons_append, List.append_assoc, closesLast,
      h.closes (depth + 1) _ (by omega), List.singleton_append, closesLast, if_neg (by omega),
      Nat.add_sub_cancel]

/-! ## What may come after -/

/-- The list begins with a sign, if it is not at its end. -/
def beginsWithSign : List Token → Bool
  | [] => true
  | .sign _ :: _ => true
  | _ => false

/-- An expression ends before this. -/
def endsExpression : List Token → Bool
  | [] => true
  | .sign .closeRound :: _ => true
  | .sign .comma :: _ => true
  | _ => false

/-- An operand ends before this. -/
def endsOperand : List Token → Bool
  | [] => true
  | .sign s :: _ => !([Sign.dot, .openRound, .openSquare].contains s)
  | _ => false

/-- The goal may end before these words. -/
def Goal.endsBefore : Goal → List Token → Bool
  | .primary | .primaryFrom _ | .atom => endsOperand
  | _ => endsExpression

/-- The goals that arithmetic needs. -/
def Goal.ofArithmetic : Goal → Bool
  | .named | .item | .expression | .chain _ | .chainFrom _ _ | .factor | .power | .primary
  | .primaryFrom _ | .atom => true
  | _ => false

/-- The goals that take at least one word. -/
def Goal.takesWord : Goal → Bool
  | .chainFrom _ _ | .primaryFrom _ => false
  | _ => true

section

variable {ts suffix : List Token}

theorem beginsWithSign_cases (h : beginsWithSign suffix = true) :
    suffix = [] ∨ ∃ s r, suffix = .sign s :: r := by
  cases suffix with
  | nil => exact .inl rfl
  | cons t r =>
    cases t with
    | sign s => exact .inr ⟨s, r, rfl⟩
    | _ => cases h

theorem endsExpression_cases (h : endsExpression suffix = true) :
    suffix = [] ∨ (∃ r, suffix = .sign .closeRound :: r) ∨ ∃ r, suffix = .sign .comma :: r := by
  cases suffix with
  | nil => exact .inl rfl
  | cons t r =>
    cases t with
    | sign s =>
      cases s with
      | closeRound => exact .inr (.inl ⟨r, rfl⟩)
      | comma => exact .inr (.inr ⟨r, rfl⟩)
      | _ => cases h
    | _ => cases h

theorem endsOperand_of_endsExpression (h : endsExpression suffix = true) :
    endsOperand suffix = true := by
  rcases endsExpression_cases h with rfl | ⟨r, rfl⟩ | ⟨r, rfl⟩
  · rfl
  · rfl
  · rfl

theorem endsPrimary_of_endsOperand (h : endsOperand suffix = true) : endsPrimary suffix = true := by
  cases suffix with
  | nil => rfl
  | cons t r =>
    cases t with
    | sign s =>
      cases s with
      | dot => cases h
      | openRound => cases h
      | openSquare => cases h
      | _ => rfl
    | _ => cases h

theorem afterSign?_of_endsExpression {s : Sign} (h : endsExpression suffix = true)
    (hclose : s ≠ .closeRound) (hcomma : s ≠ .comma) : afterSign? s suffix = none := by
  rcases endsExpression_cases h with rfl | ⟨r, rfl⟩ | ⟨r, rfl⟩
  · rfl
  · exact if_neg (Ne.symm hclose)
  · exact if_neg (Ne.symm hcomma)

/-- A sign that was not there before is not there when the list goes on. -/
theorem afterSign?_append {s : Sign} (h : afterSign? s ts = none)
    (hs : ts = [] → afterSign? s suffix = none) : afterSign? s (ts ++ suffix) = none := by
  cases ts with
  | nil => exact hs rfl
  | cons t ts =>
    cases t with
    | sign t =>
      have hne : t ≠ s := by
        rintro rfl
        rw [afterSign?_eq_some.mpr rfl] at h
        cases h
      exact if_neg hne
    | _ => rfl

theorem afterWord?_append {w : String} (h : afterWord? w ts = none)
    (hs : beginsWithSign suffix = true) : afterWord? w (ts ++ suffix) = none := by
  cases ts with
  | nil =>
    rcases beginsWithSign_cases hs with rfl | ⟨s, r, rfl⟩
    · rfl
    · rfl
  | cons t ts =>
    cases t with
    | name id =>
      have hne : id ≠ w := by
        rintro rfl
        rw [afterWord?_eq_some.mpr rfl] at h
        cases h
      exact if_neg hne
    | _ => rfl

theorem startsDefinition_append (h : startsDefinition ts = false)
    (hs : ts.length ≤ 1 → endsExpression suffix = true) :
    startsDefinition (ts ++ suffix) = false := by
  cases ts with
  | nil =>
    rcases endsExpression_cases (hs (Nat.zero_le 1)) with rfl | ⟨r, rfl⟩ | ⟨r, rfl⟩
    · rfl
    · rfl
    · rfl
  | cons t ts =>
    cases ts with
    | nil =>
      rcases endsExpression_cases (hs (Nat.le_refl 1)) with rfl | ⟨r, rfl⟩ | ⟨r, rfl⟩
      · cases t <;> rfl
      · cases t <;> rfl
      · cases t <;> rfl
    | cons u ts =>
      cases t with
      | name id =>
        cases u with
        | sign s =>
          cases s with
          | define => cases h
          | _ => rfl
        | _ => rfl
      | _ => rfl

theorem startsPositional_append (h : startsPositional ts = true) (hlen : 2 ≤ ts.length) :
    startsPositional (ts ++ suffix) = true := by
  obtain ⟨t, u, r, rfl⟩ : ∃ t u r, ts = t :: u :: r := by
    match ts, hlen with
    | t :: u :: r, _ => exact ⟨t, u, r, rfl⟩
  cases t with
  | name id =>
    cases u with
    | sign s =>
      cases s with
      | assign => cases h
      | _ => rfl
    | _ => rfl
  | sign s =>
    cases s with
    | star => cases h
    | power => cases h
    | _ => rfl
  | _ => rfl

theorem startsItem_append (h : startsItem ts = true) (hne : ts ≠ []) :
    startsItem (ts ++ suffix) = true := by
  cases ts with
  | nil => exact absurd rfl hne
  | cons t ts =>
    unfold startsItem at h ⊢
    split at h
    · cases h
    · cases h
    · split
      · simp_all
      · simp_all
      · rfl

theorem endsPrimary_append (h : endsPrimary ts = true) (hs : beginsWithSign suffix = true)
    (hend : ts = [] → endsOperand suffix = true) : endsPrimary (ts ++ suffix) = true := by
  cases ts with
  | nil => exact endsPrimary_of_endsOperand (hend rfl)
  | cons t ts =>
    cases t with
    | sign s =>
      cases s with
      | dot =>
        cases ts with
        | nil =>
          rcases beginsWithSign_cases hs with rfl | ⟨s, r, rfl⟩
          · rfl
          · rfl
        | cons u ts =>
          cases u with
          | name id => cases h
          | _ => rfl
      | openRound => cases h
      | openSquare => cases h
      | _ => rfl
    | _ => rfl

/-- The words that begin no comparison, whatever follows a last one that may begin it. -/
theorem afterComparison?_eq_none :
    afterComparison? ts = none ↔
      (∀ s r, ts = .sign s :: r → comparingSigns.contains s = false) ∧
        (∀ r, ts ≠ .name "in" :: r) ∧ (∀ r, ts ≠ .name "not" :: .name "in" :: r) ∧
        ∀ r, ts ≠ .name "is" :: r := by
  unfold afterComparison?
  split
  · rename_i s r
    constructor
    · intro h
      refine ⟨?_, by simp, by simp, by simp⟩
      intro s' r' heq
      cases heq
      split at h
      · cases h
      · rename_i hno
        exact Bool.not_eq_true _ ▸ hno
    · rintro ⟨h, -⟩
      rw [h s r rfl]
      rfl
  · rename_i r
    simp
  · rename_i r
    simp
  · rename_i r
    simp
  · rename_i r
    simp
  · rename_i hsign hin hnot hisnot his
    simp only [true_iff]
    exact ⟨fun s r heq => absurd heq (hsign s r), hin, hnot, his⟩

theorem afterComparison?_append (h : afterComparison? ts = none)
    (hs : beginsWithSign suffix = true) (hend : ts = [] → endsExpression suffix = true) :
    afterComparison? (ts ++ suffix) = none := by
  cases ts with
  | nil =>
    rcases endsExpression_cases (hend rfl) with rfl | ⟨r, rfl⟩ | ⟨r, rfl⟩
    · rfl
    · rfl
    · rfl
  | cons t ts =>
    rw [afterComparison?_eq_none] at h ⊢
    obtain ⟨hsign, hin, hnot, his⟩ := h
    refine ⟨fun s r heq => ?_, fun r heq => ?_, fun r heq => ?_, fun r heq => ?_⟩
    · obtain ⟨rfl, -⟩ := List.cons.inj heq
      exact hsign s ts rfl
    · obtain ⟨rfl, -⟩ := List.cons.inj heq
      exact hin ts rfl
    · obtain ⟨rfl, htail⟩ := List.cons.inj heq
      cases ts with
      | nil =>
        rcases beginsWithSign_cases hs with rfl | ⟨s, r', rfl⟩
        · cases htail
        · cases htail
      | cons u ts =>
        obtain ⟨rfl, -⟩ := List.cons.inj htail
        exact hnot ts rfl
    · obtain ⟨rfl, -⟩ := List.cons.inj heq
      exact his ts rfl

/-- An operator that was not there before is not there when the list goes on. -/
theorem joinAt?_append {k : ℕ} (h : joinAt? k ts = none) (hs : beginsWithSign suffix = true)
    (hend : ts = [] → endsExpression suffix = true) : joinAt? k (ts ++ suffix) = none := by
  unfold joinAt? at h ⊢
  by_cases h0 : k = 0
  · rw [if_pos h0, Option.map_eq_none_iff] at h ⊢
    exact afterWord?_append h hs
  by_cases h1 : k = 1
  · rw [if_neg h0, if_pos h1, Option.map_eq_none_iff] at h ⊢
    exact afterWord?_append h hs
  by_cases h3 : k = 3
  · rw [if_neg h0, if_neg h1, if_pos h3, Option.map_eq_none_iff] at h ⊢
    exact afterComparison?_append h hs hend
  rw [if_neg h0, if_neg h1, if_neg h3] at h ⊢
  cases ts with
  | nil =>
    rcases endsExpression_cases (hend rfl) with rfl | ⟨r, rfl⟩ | ⟨r, rfl⟩
    · rfl
    · simp [operatorNode]
    · simp [operatorNode]
  | cons t ts =>
    cases t with
    | sign s =>
      simp only [List.cons_append] at h ⊢
      split at h
      · rw [if_pos (by assumption)]
        rw [Option.map_eq_none_iff] at h ⊢
        exact h
      · rw [if_neg (by assumption)]
    | _ => rfl

/-- An operator of arithmetic joins whatever follows it. -/
theorem joinAt?_sign {k : ℕ} {s : Sign} {o : Node} (h0 : k ≠ 0) (h1 : k ≠ 1) (h3 : k ≠ 3)
    (hk : (joiningSigns k).contains s = true) (ho : operatorNode s = some o) (r : List Token) :
    joinAt? k (.sign s :: r) = some (fun l y => .mk .binary [l, o, y], r) := by
  unfold joinAt?
  rw [if_neg h0, if_neg h1, if_neg h3]
  simp only [hk, ho]
  rfl

/-- The strengths that join by words join by no sign. -/
theorem strength_of_joiningSigns {k : ℕ} {s : Sign} (hk : (joiningSigns k).contains s = true) :
    k ≠ 0 ∧ k ≠ 1 ∧ k ≠ 3 := by
  refine ⟨?_, ?_, ?_⟩
  · rintro rfl
    cases hk
  · rintro rfl
    cases hk
  · rintro rfl
    cases hk

end

end QuantumGates
