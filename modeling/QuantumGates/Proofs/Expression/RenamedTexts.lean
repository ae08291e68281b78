-- Other names in a text. Each name is written anew where it stands, and all else is kept as it is: the
-- numbers and signs, the blanks, comments and ends of lines between them. As far as a text is
-- arithmetic, the reader of texts finds the same words but for the names.
import QuantumGates.Proofs.Expression.PoweredTexts
import QuantumGates.Proofs.Expression.WordEnds

namespace QuantumGates

/-! ## Words with other names -/

/-- A word, or the other name for it. -/
def Token.renamed (r : String → String) : Token → Token
  | .name id => .name (r id)
  | t => t

def Token.isSign : Token → Bool
  | .sign _ => true
  | _ => false

section

variable {r : String → String} {n : ℕ} {c : Char} {s u w rest : List Char} {t : Token}

/-- The characters of names. -/
def inName (c : Char) : Bool := isIdentifierStart c || isIdentifierPart c

theorem touches_of_inName (c : Char) (h : inName c = true) : touches c = true := by
  rcases (Bool.or_eq_true _ _).mp h with h | h
  · exact touches_of_isIdentifierStart c h
  · exact touches_of_isIdentifierPart c h

theorem ne_of_touches {d : Char} (hc : touches c = true) (hd : touches d = false) : c ≠ d := by
  rintro rfl
  rw [hc] at hd
  cases hd

theorem isInlineBlank_of_touches (hc : touches c = true) : isInlineBlank c = false := by
  have hblank : c ≠ ' ' := ne_of_touches hc rfl
  have htab : c ≠ '\t' := ne_of_touches hc rfl
  have hfeed : c ≠ '\x0c' := ne_of_touches hc rfl
  simp [isInlineBlank, hblank, htab, hfeed]

theorem startsWord_of_touches (hc : touches c = true) : startsWord (c :: s) = true := by
  have hremark : c ≠ '#' := ne_of_touches hc rfl
  have hend : c ≠ '\n' := ne_of_touches hc rfl
  have hescape : c ≠ '\\' := ne_of_touches hc rfl
  simp [startsWord, isInlineBlank_of_touches hc, hremark, hend, hescape]

theorem inName_of_mem (hw : isIdentifier w = true) (hc : c ∈ w) : inName c = true := by
  rcases mem_isIdentifier hw hc with h | h
  · simp [inName, h]
  · simp [inName, h]

/-- A text is written as another one but for identifiers in the places of identifiers. -/
inductive Respells : List Char → List Char → Prop
  | refl (s : List Char) : Respells s s
  | keep (c : Char) {s u : List Char} : Respells s u → Respells (c :: s) (c :: u)
  | name {w w' s u : List Char} : isIdentifier w = true → isIdentifier w' = true → Respells s u →
      Respells (w ++ s) (w' ++ u)

namespace Respells

theorem append_left (h : Respells s u) (w : List Char) : Respells (w ++ s) (w ++ u) := by
  induction w with
  | nil => exact h
  | cons c w ih => exact ih.keep c

variable {α : Type} {f : Char → α} {a : α}

/-- The first characters are the same to a question that does not tell the characters of names from
one another. -/
theorem head? (h : Respells s u) (hf : ∀ c, inName c = true → f c = a) :
    u.head?.map f = s.head?.map f := by
  cases h with
  | refl => rfl
  | keep c _ => rfl
  | @name w w' s u hw hw' _ =>
    cases w with
    | nil => cases hw
    | cons c w =>
      cases w' with
      | nil => cases hw'
      | cons d w' =>
        have hc : f c = a := hf c (inName_of_mem hw List.mem_cons_self)
        have hd : f d = a := hf d (inName_of_mem hw' List.mem_cons_self)
        simp [hc, hd]

/-- So are the last ones. -/
theorem getLast? (h : Respells s u) (hf : ∀ c, inName c = true → f c = a) :
    u.getLast?.map f = s.getLast?.map f := by
  have hname {w : List Char} (hw : isIdentifier w = true) : w.getLast?.map f = some a := by
    have hne : w ≠ [] := by
      rintro rfl
      cases hw
    rw [List.getLast?_eq_getLast_of_ne_nil hne]
    exact congrArg some (hf _ (inName_of_mem hw (List.getLast_mem hne)))
  induction h with
  | refl => rfl
  | @keep c s u _ ih =>
    rw [← List.singleton_append, ← List.singleton_append (l := s), List.getLast?_append,
      List.getLast?_append, Option.map_or, Option.map_or, ih]
  | name hw hw' _ ih =>
    rw [List.getLast?_append, List.getLast?_append, Option.map_or, Option.map_or, ih, hname hw,
      hname hw']

theorem mem (h : Respells s u) (hc : inName c = false) : c ∈ u ↔ c ∈ s := by
  have hname {w : List Char} (hw : isIdentifier w = true) : c ∉ w := by
    intro hmem
    rw [inName_of_mem hw hmem] at hc
    cases hc
  induction h with
  | refl => exact Iff.rfl
  | keep d _ ih => simp [ih]
  | name hw hw' _ ih => simp [ih, hname hw, hname hw']

theorem head?_eq (h : Respells s u) (hc : inName c = false) :
    u.head? = some c ↔ s.head? = some c := by
  have hhead := h.head? (f := fun d => d == c) (a := false) fun d hd => by
    rw [beq_eq_false_iff_ne]
    rintro rfl
    rw [hc] at hd
    cases hd
  have hiff (v : List Char) : v.head? = some c ↔ v.head?.map (fun d => d == c) = some true := by
    cases v <;> simp
  rw [hiff, hiff, hhead]

theorem isEmpty (h : Respells s u) : u.isEmpty = s.isEmpty := by
  have hhead := h.head? (f := fun _ => true) (a := true) fun _ _ => rfl
  cases u with
  | nil => cases s <;> first | rfl | cases hhead
  | cons c u => cases s <;> first | rfl | cases hhead

/-- A word begins where one began. -/
theorem startsWord (h : Respells s u) : QuantumGates.startsWord u = QuantumGates.startsWord s := by
  have hname {w v : List Char} (hw : isIdentifier w = true) :
      QuantumGates.startsWord (w ++ v) = true := by
    cases w with
    | nil => cases hw
    | cons c w =>
      exact startsWord_of_touches (touches_of_inName c (inName_of_mem hw List.mem_cons_self))
  cases h with
  | refl => rfl
  | keep c h =>
    have hend := h.head?_eq (c := '\n') (by decide)
    simp only [QuantumGates.startsWord, beq_eq_beq.mpr hend]
  | name hw hw' _ => rw [hname hw, hname hw']

end Respells

/-- One of two words is a sign. -/
def Token.Apart (t u : Token) : Prop := t.isSign = true ∨ u.isSign = true

/-- Words of arithmetic with a sign between any two names or numbers. -/
structure OperandsApart (ts : List Token) : Prop where
  plain : ∀ t ∈ ts, t.isPlain = true
  apart : ts.IsChain Token.Apart

theorem OperandsApart.tail {ts : List Token} (h : OperandsApart (t :: ts)) : OperandsApart ts :=
  ⟨fun u hu => h.plain u (List.mem_cons_of_mem t hu), h.apart.tail⟩

variable {limit : Option ℕ} {fuel fuel' depth : ℕ} {begun : Bool} {ts : List Token}

end

end QuantumGates
