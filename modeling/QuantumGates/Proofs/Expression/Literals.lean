-- Numbers as operands. A finite double is written as a decimal number that rounds to it, and the
-- infinities and the number that is undefined by their names; a minus stands with its number in
-- brackets. So the tree of a number is its constant, or the negated constant of its magnitude.
import QuantumGates.Param
import QuantumGates.Proofs.Expression.FloatTexts
import QuantumGates.Proofs.Expression.Nesting

namespace QuantumGates

/-! ## Constants -/

/-- The tree is that of the magnitude of a number, which is not undefined. -/
inductive IsMagnitude (x : Float) : Node → Prop
  | infinite : x.isInf = true → IsMagnitude x (.leaf (.name "oo"))
  | finite {d : Decimal} : x.isFinite = true → d.RoundsTo x → IsMagnitude x (.leaf (.decimal d))

/-- The tree is that of a number. -/
inductive IsConstant (x : Float) : Node → Prop
  | undefined : x.isNaN = true → IsConstant x (.leaf (.name "nan"))
  | positive {t : Node} : x.isNaN = false → isNegativeFloat x = false → IsMagnitude x t →
      IsConstant x t
  | negative {t : Node} : x.isNaN = false → isNegativeFloat x = true → IsMagnitude x t →
      IsConstant x (.mk .unary [.leaf (.operator .negative), t])

theorem isFinite_eq (x : Float) : x.isFinite = (!x.isNaN && !x.isInf) := by
  unfold Float.isFinite Float.isNaN Float.isInf Float.Model.isFinite Float.Model.isNaN
    Float.Model.isInf
  cases x.toModel.unpack <;> rfl

section

variable {s : List Char} {x : Node}

/-! ## Single words -/

theorem operand_of_word {t : Token} (h : readAll? [t] = some x) (hx : x.Plain)
    (ht : isAtomicWords [t] = true) : Operand [t] x := (expresses_of_readAll? h hx).operand hx ht

/-- A single word is an operand if a caret is not what it is. -/
theorem written_word {t : Token} {f : Formula} (hplain : IsPlainText s) (hs : Lexes s [t])
    (h : readAll? [t] = some x) (ht : isAtomicWords [t] = true) (hcaret : t.caretAsPower = t)
    (haccepted : x.Accepted) (hf : x.meaning? = some (.value f)) : Written Operand s x := by
  have hoperand := operand_of_word h haccepted.plain ht
  refine ⟨hplain, [t], x, f, hs, hoperand, haccepted, ?_, hf⟩
  rwa [List.map_singleton, hcaret]

/-- A name that stands for a value is an operand. -/
theorem written_name {name : String} {f : Formula} (hplain : IsPlainText s)
    (hs : Lexes s [.name name]) (h : readAll? [.name name] = some (.leaf (.name name)))
    (hsingle : name.startsWith "__" = false)
    (hf : (Node.leaf (.name name)).meaning? = some (.value f)) :
    Written Operand s (.leaf (.name name)) :=
  written_word hplain hs h rfl rfl (accepted_name hsingle) hf

theorem written_oo : Written Operand ['o', 'o'] (.leaf (.name "oo")) :=
  written_name (f := .constant .infinity) (isPlainText_of_all rfl) (.word rfl rfl .nil) rfl
    (by simp) rfl

theorem nestedTo_oo : NestedTo 0 ['o', 'o'] :=
  ⟨_, .word rfl rfl .nil, balanced_singleton rfl (by simp) (by simp), by decide⟩

theorem written_nan : Written Operand ['n', 'a', 'n'] (.leaf (.name "nan")) :=
  written_name (f := .constant .undefined) (isPlainText_of_all rfl) (.word rfl rfl .nil) rfl
    (by simp) rfl

/-- The text of a decimal number is a single word. -/
theorem DecimalText.lexes {d : Decimal} (h : DecimalText s d) : Lexes s [.decimal d] := by
  obtain ⟨c, r, rfl, hc⟩ := h.digit
  have hstart : startsNumber (c :: r) = true := by
    show (isAsciiDigit c || _) = true
    rw [hc]
    rfl
  have htext : takeText? (c :: r) = none := by
    have hletter : isAsciiLetter c = false := by
      have hcodes : ∀ n < 58, 48 ≤ n → isAsciiLetter (Char.ofNat n) = false := by decide
      rw [isAsciiDigit_eq, Bool.and_eq_true, decide_eq_true_eq, decide_eq_true_eq] at hc
      have hcode := hcodes c.toNat (by omega) hc.1
      rwa [Char.ofNat_toNat] at hcode
    rw [takeText?_eq_none, List.takeWhile_cons, List.dropWhile_cons, hletter]
    unfold startsQuoted
    have hquote : c ≠ '\'' ∧ c ≠ '"' := by
      constructor
      · rintro rfl
        cases hc
      · rintro rfl
        cases hc
    simp [hquote]
  have hword : takeToken? (c :: r) = some (.decimal d, []) := by
    rw [takeToken?_of_number htext (isIdentifierStart_of_startsNumber hstart) hstart,
      takeNumberToken?_of_decimal, takeDecimal?_of_number h.reads nofun nofun]
    · rfl
    · intro c' r' heq
      have hreads := h.reads
      rw [heq] at hreads
      exact baseOf?_of_takeNumber? hreads
  exact .word hword rfl .nil

theorem DecimalText.nestedTo {d : Decimal} (h : DecimalText s d) : NestedTo 1 s :=
  ⟨_, h.lexes, balanced_singleton rfl (by simp) (by simp), rfl⟩

theorem DecimalText.written {d : Decimal} (h : DecimalText s d) :
    Written Operand s (.leaf (.decimal d)) :=
  written_word (f := .decimal d) h.plain h.lexes rfl rfl rfl
    ((Node.accepted_iff _).mpr ⟨rfl, trivial⟩) rfl

end

/-! ## Numbers -/

/-- The magnitude of a number is written as an operand, and the number as its magnitude or as the
negated magnitude in brackets. -/
theorem exists_magnitude {x : Float} (hnan : x.isNaN = false) :
    ∃ s t n, IsMagnitude x t ∧ Written Operand s t ∧ NestedTo n s ∧ n ≤ 1 ∧
      (Param.literalText x).toList =
        if isNegativeFloat x then '(' :: '-' :: s ++ [')'] else s := by
  have hfinite := isFinite_eq x
  rw [hnan] at hfinite
  unfold Param.literalText
  show ∃ s t n, IsMagnitude x t ∧ Written Operand s t ∧ NestedTo n s ∧ n ≤ 1 ∧
    (if !(!x.isNaN) then "nan"
      else if !x.isFinite then (if isNegativeFloat x then "(-oo)" else "oo")
      else if isNegativeFloat x then "(" ++ floatText x ++ ")" else floatText x).toList = _
  rw [hnan]
  cases hinf : x.isInf with
  | true =>
    rw [hinf] at hfinite
    refine ⟨_, _, 0, .infinite hinf, written_oo, nestedTo_oo, Nat.zero_le 1, ?_⟩
    rw [hfinite]
    cases isNegativeFloat x with
    | true => simp
    | false => simp
  | false =>
    rw [hinf] at hfinite
    obtain ⟨s, d, htext, hd, hrounds⟩ := exists_floatText hnan hinf
    refine ⟨s, _, 1, .finite hfinite hrounds, hd.written, hd.nestedTo, Nat.le_refl 1, ?_⟩
    rw [hfinite, htext]
    cases isNegativeFloat x with
    | true => simp
    | false => simp

/-- A number is written as an operand with its constant for a tree. -/
theorem exists_constant (x : Float) :
    ∃ t, IsConstant x t ∧ Written Operand (Param.literalText x).toList t := by
  cases hnan : x.isNaN with
  | true =>
    refine ⟨_, .undefined hnan, ?_⟩
    have htext : Param.literalText x = "nan" := by
      show (if !(!x.isNaN) then "nan" else _) = _
      rw [hnan]
      rfl
    rw [htext]
    exact written_nan
  | false =>
    obtain ⟨s, t, -, hmagnitude, hs, -, -, htext⟩ := exists_magnitude hnan
    rw [htext]
    cases hminus : isNegativeFloat x with
    | true => exact ⟨_, .negative hnan hminus hmagnitude, hs.negate.brackets⟩
    | false => exact ⟨t, .positive hnan hminus hmagnitude, hs⟩

/-- The brackets of a number that is not undefined. -/
theorem exists_nestedTo {x : Float} (hnan : x.isNaN = false) :
    ∃ n ≤ 2, NestedTo n (Param.literalText x).toList := by
  obtain ⟨s, t, n, -, -, hs, hn, htext⟩ := exists_magnitude hnan
  rw [htext]
  split
  · exact ⟨n + 1, by omega, hs.negate.brackets⟩
  · exact ⟨n, by omega, hs⟩

end QuantumGates
