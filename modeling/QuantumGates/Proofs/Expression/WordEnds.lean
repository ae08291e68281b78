-- Where words end. A number, a name or a sign is read by its own characters and by a look at those
-- after it. Where the next character cannot go on with the word, any other such character may stand
-- there, and the text behind it may be any: the word stays the same.
import QuantumGates.Proofs.Expression.PoweredWords
import QuantumGates.Proofs.Expression.UnboundNames

namespace QuantumGates

/-! ## The next character -/

/-- The text does not begin with a character of this sort. -/
def Avoids (p : Char → Bool) (s : List Char) : Prop := ∀ c ∈ s.head?, p c = false

section

variable {p q : Char → Bool} {c : Char} {s u w : List Char}

theorem Avoids.mono (h : Avoids q s) (hpq : ∀ c, p c = true → q c = true) : Avoids p s := by
  intro c hc
  have hq := h c hc
  cases hp : p c with
  | false => rfl
  | true => rw [hpq c hp] at hq; exact hq

/-- The characters that a number or a name goes on with, or that may not follow it in arithmetic. -/
def touches (c : Char) : Bool :=
  isAsciiLetter c || isAsciiDigit c || c == '_' || c == '.' || c == '\'' || c == '"' ||
    decide (128 ≤ c.toNat)

end

/-! ## Digits -/

section

variable {digit : Char → Option ℕ} {c : Char} {s u rest : List Char}

end

/-! ## Numbers -/

section

variable {s u rest : List Char} {t : Token}

end

/-! ## Signs -/

/-- How a sign of arithmetic is written. -/
def Sign.spelling : Sign → List Char
  | .plus => ['+']
  | .minus => ['-']
  | .star => ['*']
  | .slash => ['/']
  | .power => ['*', '*']
  | .caret => ['^']
  | .openRound => ['(']
  | .closeRound => [')']
  | .comma => [',']
  | _ => []

section

variable {g : Sign} {s u rest : List Char}

end

/-! ## Names and numbers -/

section

variable {s u rest : List Char} {t : Token} {c : Char}

theorem touches_of_isIdentifierPart (c : Char) (h : isIdentifierPart c = true) :
    touches c = true := by
  unfold isIdentifierPart at h
  unfold touches
  split at h
  · simp only [Bool.or_eq_true] at h ⊢
    tauto
  · rename_i hcode
    simp only [Bool.or_eq_true, decide_eq_true_eq]
    exact .inr (Nat.not_lt.mp hcode)

theorem touches_of_isIdentifierStart (c : Char) (h : isIdentifierStart c = true) :
    touches c = true := by
  unfold isIdentifierStart at h
  unfold touches
  split at h
  · simp only [Bool.or_eq_true] at h ⊢
    tauto
  · rename_i hcode
    simp only [Bool.or_eq_true, decide_eq_true_eq]
    exact .inr (Nat.not_lt.mp hcode)

theorem mem_isIdentifier {w : List Char} (hw : isIdentifier w = true) (hc : c ∈ w) :
    isIdentifierStart c = true ∨ isIdentifierPart c = true := by
  cases w with
  | nil => cases hc
  | cons d w =>
    rw [isIdentifier, Bool.and_eq_true, List.all_eq_true] at hw
    rcases List.mem_cons.mp hc with rfl | hc
    · exact .inl hw.1
    · exact .inr (hw.2 c hc)

end

end QuantumGates
