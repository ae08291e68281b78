-- Texts that are put into an expression without brackets. The text is judged by its characters, its
-- tree depends on its words; the words of a text that is judged to be a name, a number, a bracket
-- or a call are just that.
import Mathlib.Data.List.TakeWhile
import QuantumGates.Proofs.Expression.Atomic
import QuantumGates.Proofs.Expression.NumberTexts

namespace QuantumGates

section

variable {s : List Char} {ts : List Token}

/-! ## Brackets that close at the end -/

theorem closesAtEnd_append {w : List Char} (hw : NoRound w) (depth : ℕ) (s : List Char) :
    closesAtEnd depth (w ++ s) = closesAtEnd depth s := by
  induction w with
  | nil => rfl
  | cons c w ih =>
    obtain ⟨hopen, hclose⟩ := hw c List.mem_cons_self
    rw [List.cons_append, closesAtEnd, if_neg hopen, if_neg hclose]
    exact ih fun d hd => hw d (List.mem_cons_of_mem c hd)

theorem closesLast_cons {t : Token} (hopen : t ≠ .sign .openRound) (hclose : t ≠ .sign .closeRound)
    (depth : ℕ) (ts : List Token) : closesLast depth (t :: ts) = closesLast depth ts := by
  cases t with
  | sign s =>
    cases s with
    | openRound => exact absurd rfl hopen
    | closeRound => exact absurd rfl hclose
    | _ => rfl
  | _ => rfl

/-- A bracket that closes at the end of a text closes with the last word. -/
theorem Lexes.closesLast (h : Lexes s ts) {depth : ℕ} (hclose : closesAtEnd depth s = true) :
    QuantumGates.closesLast depth ts = true := by
  induction h generalizing depth with
  | nil => cases hclose
  | blank _ ih => exact ih hclose
  | @word s rest t ts hword hplain hrest ih =>
    obtain ⟨w, hw⟩ := headWord hword hplain
    rw [hw.split] at hclose
    by_cases hopen : t = .sign .openRound
    · rw [hw.opens hopen] at hclose
      subst hopen
      exact ih hclose
    by_cases hround : t = .sign .closeRound
    · rw [hw.closes hround] at hclose
      subst hround
      have hstep : (if depth = 1 then rest.isEmpty else closesAtEnd (depth - 1) rest) = true :=
        hclose
      show (if depth = 1 then ts.isEmpty else QuantumGates.closesLast (depth - 1) ts) = true
      split
      · rename_i hdepth
        rw [if_pos hdepth, List.isEmpty_iff] at hstep
        subst hstep
        cases hrest with
        | nil => rfl
        | word hword => cases hword
      · rename_i hdepth
        rw [if_neg hdepth] at hstep
        exact ih hstep
    · rw [closesAtEnd_append (hw.noRound hopen hround)] at hclose
      rw [closesLast_cons hopen hround]
      exact ih hclose

/-! ## Texts that are operands -/

/-- The words of a text that does not begin with a blank. -/
theorem Lexes.exists_word {c : Char} (h : Lexes (c :: s) ts) (hc : c ≠ ' ') :
    ∃ t rest us, takeToken? (c :: s) = some (t, rest) ∧ t.isPlain = true ∧ Lexes rest us ∧
      ts = t :: us := by
  cases h with
  | blank h => exact absurd rfl hc
  | word hword hplain hrest => exact ⟨_, _, _, hword, hplain, hrest, rfl⟩

theorem Lexes.eq_nil (h : Lexes [] ts) : ts = [] := by
  cases h with
  | nil => rfl
  | word hword => cases hword

/-- A bracket that closes at the end of a text is a bracket that closes with the last word. -/
theorem Lexes.bracket (h : Lexes ('(' :: s) ts) (hclose : closesAtEnd 0 ('(' :: s) = true) :
    ∃ us, ts = .sign .openRound :: us ∧ QuantumGates.closesLast 1 us = true := by
  obtain ⟨t, rest, us, hword, -, hrest, rfl⟩ := h.exists_word (by decide)
  cases hword
  exact ⟨us, rfl, hrest.closesLast hclose⟩

/-- The characters of names among the plain ones. -/
theorem isIdentifierPart_of_plain {c : Char} (hc : isPlainChar c = true) :
    isIdentifierPart c = (isAsciiLetter c || isAsciiDigit c || c == '_') := by
  unfold isPlainChar at hc
  simp only [Bool.and_eq_true, decide_eq_true_eq] at hc
  exact if_pos (by omega)

theorem isIdentifierStart_of_plain {c : Char} (hc : isPlainChar c = true) :
    isIdentifierStart c = (isAsciiLetter c || c == '_') := by
  unfold isPlainChar at hc
  simp only [Bool.and_eq_true, decide_eq_true_eq] at hc
  exact if_pos (by omega)

theorem dropWhile_isIdentifierPart (hs : IsPlainText s) :
    s.dropWhile isIdentifierPart =
      s.dropWhile fun c => isAsciiLetter c || isAsciiDigit c || c == '_' := by
  induction s with
  | nil => rfl
  | cons c s ih =>
    rw [List.dropWhile_cons, List.dropWhile_cons, ih hs.tail,
      isIdentifierPart_of_plain (hs c List.mem_cons_self)]

/-- The name at the head of a text, and the words of what follows it. -/
theorem Lexes.exists_name {c : Char} (h : Lexes (c :: s) ts) (hs : IsPlainText (c :: s))
    (hc : (isAsciiLetter c || c == '_') = true) :
    ∃ id us, ts = .name id :: us ∧
      Lexes (s.dropWhile fun c => isAsciiLetter c || isAsciiDigit c || c == '_') us := by
  have hspace : c ≠ ' ' := by
    rintro rfl
    cases hc
  obtain ⟨t, rest, us, hword, hplain, hrest, rfl⟩ := h.exists_word hspace
  rw [takeToken?_of_name (takeText?_of_plain hword hplain)
    (by rwa [isIdentifierStart_of_plain (hs c List.mem_cons_self)])] at hword
  cases hword
  rw [dropWhile_isIdentifierPart hs.tail] at hrest
  exact ⟨_, us, rfl, hrest⟩

theorem isAtomicWords_of_name (h : Lexes s ts) (hs : IsPlainText s)
    (hname : isPlainIdentifier s = true) : isAtomicWords ts = true := by
  cases s with
  | nil => cases hname
  | cons c s =>
    rw [isPlainIdentifier, Bool.and_eq_true, List.all_eq_true] at hname
    obtain ⟨id, us, rfl, hrest⟩ := h.exists_name hs hname.1
    rw [List.dropWhile_eq_nil_iff.mpr hname.2] at hrest
    rw [hrest.eq_nil]
    rfl

theorem isAtomicWords_of_number (h : Lexes s ts) (hs : IsPlainText s)
    (hnumber : isNumberText s = true) : isAtomicWords ts = true := by
  have hstart := startsNumber_of_isNumberText hs hnumber
  cases s with
  | nil => cases hstart
  | cons c s =>
    have hspace : c ≠ ' ' := by
      rintro rfl
      cases hstart
    obtain ⟨t, rest, us, hword, hplain, hrest, rfl⟩ := h.exists_word hspace
    obtain ⟨ht, rfl⟩ := eq_nil_of_isNumberText hs hnumber hword hplain
    rw [hrest.eq_nil]
    cases t with
    | whole n => rfl
    | decimal d => rfl
    | _ => cases ht

theorem isAtomicWords_of_brackets (h : Lexes s ts) (hs : IsPlainText s)
    (hhead : (afterCallee s).head? = some '(') (hclose : closesAtEnd 0 (afterCallee s) = true) :
    isAtomicWords ts = true := by
  cases s with
  | nil => cases hhead
  | cons c s =>
    by_cases hc : (isAsciiLetter c || c == '_') = true
    · obtain ⟨id, us, rfl, hrest⟩ := h.exists_name hs hc
      have hpart : (isAsciiLetter c || isAsciiDigit c || c == '_') = true := by
        rw [Bool.or_eq_true] at hc
        rcases hc with hc | hc
        · rw [hc]
          rfl
        · rw [hc, Bool.or_true]
      have hafter : afterCallee (c :: s) =
          if (s.dropWhile fun c => isAsciiLetter c || isAsciiDigit c || c == '_').head? = some '('
          then s.dropWhile fun c => isAsciiLetter c || isAsciiDigit c || c == '_'
          else c :: s := by
        unfold afterCallee
        simp only [startsWithLetter, hc, ↓reduceIte, List.dropWhile_cons, hpart]
      rw [hafter] at hhead hclose
      split at hhead
      · rename_i hround
        rw [if_pos hround] at hclose
        cases hdrop : s.dropWhile fun c => isAsciiLetter c || isAsciiDigit c || c == '_' with
        | nil =>
          rw [hdrop] at hround
          cases hround
        | cons d r =>
          rw [hdrop] at hround hclose hrest
          cases hround
          obtain ⟨vs, rfl, hvs⟩ := hrest.bracket hclose
          exact hvs
      · cases hhead
        cases hc
    · have hafter : afterCallee (c :: s) = c :: s := if_neg hc
      rw [hafter] at hhead hclose
      cases hhead
      obtain ⟨us, rfl, hus⟩ := h.bracket hclose
      exact hus

/-- The words of a text that is judged to be an operand are those of an operand. -/
theorem isAtomicWords_of_isAtomic {text : String} (h : Lexes text.toList ts)
    (hs : IsPlainText text.toList) (hatomic : isAtomic text = true) : isAtomicWords ts = true := by
  unfold isAtomic at hatomic
  simp only [Bool.or_eq_true, Bool.and_eq_true, beq_iff_eq] at hatomic
  rcases hatomic with (hname | hnumber) | ⟨hhead, hclose⟩
  · exact isAtomicWords_of_name h hs hname
  · exact isAtomicWords_of_number h hs hnumber
  · exact isAtomicWords_of_brackets h hs hhead hclose

end

end QuantumGates
