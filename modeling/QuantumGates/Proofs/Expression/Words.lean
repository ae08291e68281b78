-- The words of a text. A word that arithmetic may hold is read in the same way when the text goes
-- on with a separator, so texts that are put together with blanks, brackets and commas have the
-- words of their parts. `Lexes` says which words a text has, without the depth of brackets and the
-- count of steps that the reader of texts carries along.
import QuantumGates.Proofs.Expression.Lookahead
import QuantumGates.Proofs.Expression.Scanning

namespace QuantumGates

/-! ## Quoted texts -/

section

variable {s u rest : List Char} {t : Token}

theorem drop_takeWhile (p : Char → Bool) (s : List Char) :
    s.drop (s.takeWhile p).length = s.dropWhile p := by
  induction s with
  | nil => rfl
  | cons c s ih =>
    rw [List.takeWhile_cons, List.dropWhile_cons]
    cases p c with
    | false => rfl
    | true => exact ih

/-- The letters before a quote, if a quote follows them. -/
def startsQuoted (letters tail : List Char) : Bool :=
  (quoteStart? letters).isSome && (tail.head? == some '\'' || tail.head? == some '"')

theorem takeText?_eq_none :
    takeText? s = none ↔
      startsQuoted (s.takeWhile isAsciiLetter) (s.dropWhile isAsciiLetter) = false := by
  unfold takeText? startsQuoted
  simp only [drop_takeWhile]
  cases quoteStart? (s.takeWhile isAsciiLetter) with
  | none => simp
  | some found =>
    obtain ⟨kind, raw⟩ := found
    cases s.dropWhile isAsciiLetter with
    | nil => simp
    | cons q r =>
      simp only
      by_cases hq : q = '\'' ∨ q = '"'
      · rw [if_pos hq]
        constructor
        · intro h
          split at h
          · cases h
          · cases h
        · intro h
          rcases hq with rfl | rfl
          · cases h
          · cases h
      · rw [if_neg hq]
        simpa using hq

/-- A text begins with a quoted text or does not, whatever follows it after a separator. -/
theorem takeText?_append (hu : endsWord u = true) :
    takeText? (s ++ u) = none ↔ takeText? s = none := by
  have hletter : ∀ c, isSeparator c = true → isAsciiLetter c = false :=
    fun c hc => eq_of_isSeparator ⟨rfl, rfl, rfl, rfl⟩ hc
  rw [takeText?_eq_none, takeText?_eq_none, takeWhile_append_of_endsWord hletter hu,
    dropWhile_append_of_endsWord hletter hu]
  cases s.dropWhile isAsciiLetter with
  | cons q r => rfl
  | nil =>
    have hquote : startsQuoted (s.takeWhile isAsciiLetter) u = false := by
      cases u with
      | nil => exact Bool.and_false _
      | cons c u =>
        unfold startsQuoted
        rw [Bool.and_eq_false_iff]
        right
        exact eq_of_isSeparator
          (f := fun c => (c :: u).head? == some '\'' || (c :: u).head? == some '"')
          ⟨rfl, rfl, rfl, rfl⟩ hu
    exact iff_of_true hquote (Bool.and_false _)

/-! ## One word -/

/-- The word `t` with the spelling `w` stands at the head of a text. -/
structure Spelled (s : List Char) (t : Token) (w rest : List Char) : Prop where
  split : s = w ++ rest
  takes : w ≠ []
  opens : t = .sign .openRound → w = ['(']
  closes : t = .sign .closeRound → w = [')']
  noRound : t ≠ .sign .openRound → t ≠ .sign .closeRound → NoRound w

/-- The word does so when the text goes on with a separator, too. -/
structure HeadWord (s : List Char) (t : Token) (w rest : List Char) : Prop
    extends Spelled s t w rest where
  goesOn : ∀ u, endsWord u = true → takeToken? (s ++ u) = some (t, rest ++ u)

theorem isIdentifierPart_of_isSeparator (c : Char) (h : isSeparator c = true) :
    isIdentifierPart c = false := by
  have hall : isIdentifierPart ' ' = false ∧ isIdentifierPart '(' = false ∧
      isIdentifierPart ')' = false ∧ isIdentifierPart ',' = false := by decide
  exact eq_of_isSeparator (f := isIdentifierPart) hall h

theorem isSeparator_of_isIdentifierStart {c : Char} (h : isIdentifierStart c = true) :
    isSeparator c = false := by
  have hall : isIdentifierStart ' ' = false ∧ isIdentifierStart '(' = false ∧
      isIdentifierStart ')' = false ∧ isIdentifierStart ',' = false := by decide
  cases hsep : isSeparator c with
  | false => rfl
  | true =>
    rw [eq_of_isSeparator (f := isIdentifierStart) hall hsep] at h
    cases h

/-- A digit, or a point before a digit. -/
def startsNumber : List Char → Bool
  | [] => false
  | c :: s => isAsciiDigit c || (c == '.' && (s.head?.map isAsciiDigit).getD false)

theorem takeToken?_of_name {c : Char} (htext : takeText? (c :: s) = none)
    (hc : isIdentifierStart c = true) :
    takeToken? (c :: s) = some (.name (String.ofList (c :: s.takeWhile isIdentifierPart)),
      s.dropWhile isIdentifierPart) := by
  unfold takeToken?
  simp only [htext, hc, ↓reduceIte]

theorem takeToken?_of_number {c : Char} (htext : takeText? (c :: s) = none)
    (hc : isIdentifierStart c = false) (hnumber : startsNumber (c :: s) = true) :
    takeToken? (c :: s) = takeNumberToken? (c :: s) := by
  unfold startsNumber at hnumber
  unfold takeToken?
  simp only [htext, hc, hnumber, ↓reduceIte, Bool.false_eq_true]

theorem takeToken?_of_sign {c : Char} (htext : takeText? (c :: s) = none)
    (hc : isIdentifierStart c = false) (hnumber : startsNumber (c :: s) = false) :
    takeToken? (c :: s) = (takeSymbol? (c :: s)).map fun (g, tail) => (.sign g, tail) := by
  unfold startsNumber at hnumber
  unfold takeToken?
  simp only [htext, hc, hnumber, ↓reduceIte, Bool.false_eq_true]

theorem startsNumber_append {c : Char} (hu : endsWord u = true) :
    startsNumber (c :: s ++ u) = startsNumber (c :: s) := by
  cases s with
  | cons d s => rfl
  | nil =>
    cases u with
    | nil => rfl
    | cons d u =>
      have hd : isAsciiDigit d = false := eq_of_isSeparator ⟨rfl, rfl, rfl, rfl⟩ hu
      show (isAsciiDigit c || (c == '.' && isAsciiDigit d)) = _
      rw [hd]
      rfl

theorem isPlain_of_takeText? (h : takeText? s = some (some t, rest)) : t.isPlain = false := by
  unfold takeText? at h
  simp only at h
  split at h
  · split at h
    · split at h
      · cases h
      · simp only [Option.some.injEq, Prod.mk.injEq] at h
        obtain ⟨h, -⟩ := h
        split at h
        · cases h
          rfl
        · cases h
    · cases h
  · cases h

/-- A word of arithmetic at the head of a text is no quoted text. -/
theorem takeText?_of_plain (h : takeToken? s = some (t, rest)) (ht : t.isPlain = true) :
    takeText? s = none := by
  unfold takeToken? at h
  split at h
  · cases h
  · split at h
    · rename_i htext
      cases h
      rw [isPlain_of_takeText? htext] at ht
      cases ht
    · cases h
    · rename_i htext
      exact htext

/-- A word that is no quoted text is read in the same way whether the text ends or goes on with a
separator. -/
theorem takeToken?_append (hs : s ≠ []) (hu : endsWord u = true)
    (htext : takeText? (s ++ u) = none) : takeToken? (s ++ u) = goingOn u (takeToken? s) := by
  have htext' := (takeText?_append hu).mp htext
  have hpart := isIdentifierPart_of_isSeparator
  cases s with
  | nil => exact absurd rfl hs
  | cons c s =>
    rw [List.cons_append] at htext ⊢
    cases hc : isIdentifierStart c with
    | true =>
      rw [takeToken?_of_name htext hc, takeToken?_of_name htext' hc,
        takeWhile_append_of_endsWord hpart hu, dropWhile_append_of_endsWord hpart hu]
      rfl
    | false =>
      have hnumber := startsNumber_append (s := s) (c := c) hu
      rw [List.cons_append] at hnumber
      cases hstarts : startsNumber (c :: s) with
      | true =>
        rw [takeToken?_of_number htext hc (hnumber.trans hstarts),
          takeToken?_of_number htext' hc hstarts]
        exact takeNumberToken?_append (List.cons_ne_nil c s) hu
      | false =>
        rw [takeToken?_of_sign htext hc (hnumber.trans hstarts),
          takeToken?_of_sign htext' hc hstarts, ← List.cons_append,
          takeSymbol?_append (List.cons_ne_nil c s) hu]
        cases takeSymbol? (c :: s) <;> rfl

/-- A name at the head of a text. -/
theorem spelled_of_name {c : Char} (h : takeToken? (c :: s) = some (t, rest))
    (ht : t.isPlain = true) (hc : isIdentifierStart c = true) :
    ∃ w, Spelled (c :: s) t w rest := by
  rw [takeToken?_of_name (takeText?_of_plain h ht) hc] at h
  cases h
  refine ⟨c :: s.takeWhile isIdentifierPart, ?_, List.cons_ne_nil _ _, nofun, nofun, fun _ _ =>
    noRound_cons (isSeparator_of_isIdentifierStart hc)
      (noRound_takeWhile isIdentifierPart_of_isSeparator)⟩
  rw [List.cons_append, List.takeWhile_append_dropWhile]

/-- A number at the head of a text. -/
theorem spelled_of_number {c : Char} (h : takeToken? (c :: s) = some (t, rest))
    (ht : t.isPlain = true) (hc : isIdentifierStart c = false)
    (hnumber : startsNumber (c :: s) = true) : ∃ w, Spelled (c :: s) t w rest := by
  rw [takeToken?_of_number (takeText?_of_plain h ht) hc hnumber] at h
  obtain ⟨w, hw⟩ := takeNumberToken?_read h (by rintro rfl; cases ht)
  have hnosign : ∀ g, t ≠ .sign g := by
    rintro g rfl
    cases hw.number
  exact ⟨w, hw.split, hw.takes, fun heq => absurd heq (hnosign _),
    fun heq => absurd heq (hnosign _), fun _ _ => hw.noRound⟩

/-- A sign at the head of a text. -/
theorem spelled_of_sign {c : Char} (h : takeToken? (c :: s) = some (t, rest))
    (ht : t.isPlain = true) (hc : isIdentifierStart c = false)
    (hnumber : startsNumber (c :: s) = false) : ∃ w, Spelled (c :: s) t w rest := by
  rw [takeToken?_of_sign (takeText?_of_plain h ht) hc hnumber] at h
  obtain ⟨⟨g, r⟩, hsymbol, heq⟩ := Option.map_eq_some_iff.mp h
  cases heq
  obtain ⟨w, hsplit, hne, hopen, hclose, hround⟩ := takeSymbol?_read hsymbol
  refine ⟨w, hsplit, hne, ?_, ?_, ?_⟩
  · rintro ⟨⟩
    exact hopen rfl
  · rintro ⟨⟩
    exact hclose rfl
  · intro hno hno'
    exact hround (fun h => hno (congrArg _ h)) fun h => hno' (congrArg _ h)

/-- A sign that was read as a word is read as a sign. -/
theorem takeSymbol?_of_takeToken? {g : Sign} (h : takeToken? s = some (.sign g, rest))
    (hg : (Token.sign g).isPlain = true) : takeSymbol? s = some (g, rest) := by
  have htext := takeText?_of_plain h hg
  cases s with
  | nil => cases h
  | cons c s =>
    cases hc : isIdentifierStart c with
    | true =>
      rw [takeToken?_of_name htext hc] at h
      cases h
    | false =>
      cases hnumber : startsNumber (c :: s) with
      | true =>
        rw [takeToken?_of_number htext hc hnumber] at h
        obtain ⟨w, hw⟩ := takeNumberToken?_read h (by simp)
        cases hw.number
      | false =>
        rw [takeToken?_of_sign htext hc hnumber] at h
        obtain ⟨⟨g', r⟩, hsymbol, heq⟩ := Option.map_eq_some_iff.mp h
        cases heq
        exact hsymbol

theorem spelled_of_takeToken? (h : takeToken? s = some (t, rest)) (ht : t.isPlain = true) :
    ∃ w, Spelled s t w rest := by
  cases s with
  | nil => cases h
  | cons c s =>
    cases hc : isIdentifierStart c with
    | true => exact spelled_of_name h ht hc
    | false =>
      cases hnumber : startsNumber (c :: s) with
      | true => exact spelled_of_number h ht hc hnumber
      | false => exact spelled_of_sign h ht hc hnumber

/-- A word of arithmetic is read in the same way before a separator. -/
theorem headWord (h : takeToken? s = some (t, rest)) (ht : t.isPlain = true) :
    ∃ w, HeadWord s t w rest := by
  obtain ⟨w, hw⟩ := spelled_of_takeToken? h ht
  refine ⟨w, hw, fun u hu => ?_⟩
  have hs : s ≠ [] := by
    rintro rfl
    cases h
  rw [takeToken?_append hs hu ((takeText?_append hu).mpr (takeText?_of_plain h ht)), h]
  rfl

end

end QuantumGates
