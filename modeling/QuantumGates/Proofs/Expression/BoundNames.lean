-- Variables that have a value. A table takes any plain identifier as the name of a variable, and the
-- name alone is an expression. It stands for the value in the table, unless it means something else
-- or nothing in the language of expressions: such a name is never looked up. A finite double is kept
-- on the way through the table and the term, but for the minus of nought.
import QuantumGates.Datum.Table
import QuantumGates.Proofs.Expression.Dependence
import QuantumGates.Proofs.Expression.Enclosed
import QuantumGates.Proofs.Expression.Literals
import QuantumGates.Proofs.Number.ReadBack

namespace QuantumGates

/-! ## Tables -/

namespace Bindings

section

variable {R : Type} {b : Bindings R} {name other : String} {x : R}

theorem get?_set_self : (b.set name x).get? name = some x := by
  obtain ⟨entries⟩ := b
  unfold set get?
  split
  · rename_i hany
    induction entries with
    | nil => cases hany
    | cons e es ih =>
      obtain ⟨key, y⟩ := e
      by_cases hname : key = name
      · simp [hname]
      · have hne : (name == key) = false := beq_eq_false_iff_ne.mpr (Ne.symm hname)
        have hrest : (es.any fun e => e.1 == name) = true := by simpa [hname] using hany
        simpa [hname, hne, List.lookup_cons] using ih hrest
  · rename_i hany
    have hnone : entries.lookup name = none := by
      refine List.lookup_eq_none_iff.mpr fun e he => bne_iff_ne.mpr ?_
      rintro rfl
      exact hany (List.any_eq_true.mpr ⟨e, he, beq_self_eq_true e.1⟩)
    rw [List.lookup_append, hnone, Option.none_or, List.lookup_cons, beq_self_eq_true]

end

/-- A table takes every plain identifier, and nothing else, as the name of a variable. -/
theorem assign_eq_ok_iff {b b' : Bindings Float} {name : String} {v : Float} :
    b.assign (.text name) (.number v) = .ok b' ↔
      isPlainIdentifier name.toList = true ∧ b' = b.set name v := by
  have hassign : b.assign (.text name) (.number v) =
      if isPlainIdentifier name.toList then .ok (b.set name v)
      else .error (.variableName (Datum.text name).shown) := rfl
  rw [hassign]
  split
  · rename_i hplain
    exact ⟨fun h => ⟨hplain, (Except.ok.inj h).symm⟩, fun h => congrArg Except.ok h.2.symm⟩
  · rename_i hplain
    exact iff_of_false nofun fun h => hplain h.1

end Bindings

/-! ## Words that are names -/

/-- The characters of plain identifiers. -/
def isNameChar (c : Char) : Bool := isAsciiLetter c || isAsciiDigit c || c == '_'

theorem isPlainChar_of_isNameChar {c : Char} (h : isNameChar c = true) : isPlainChar c = true := by
  have hcode : 48 ≤ c.toNat ∧ c.toNat ≤ 122 := by
    simp only [isNameChar, isAsciiLetter, isAsciiDigit, Char.within, Char.le_def,
      UInt32.le_iff_toNat_le, Bool.or_eq_true, Bool.and_eq_true, decide_eq_true_eq,
      beq_iff_eq] at h
    have hz : 'z'.val.toNat = 122 ∧ 'a'.val.toNat = 97 ∧ 'Z'.val.toNat = 90 ∧ 'A'.val.toNat = 65 ∧
        '9'.val.toNat = 57 ∧ '0'.val.toNat = 48 := by decide
    unfold Char.toNat
    rcases h with ((h | h) | h) | rfl
    · omega
    · omega
    · omega
    · decide
  have hremark : c ≠ '#' := by
    rintro rfl
    exact absurd hcode.1 (by decide)
  unfold isPlainChar
  rw [decide_eq_true (by omega), decide_eq_true (by omega), bne_iff_ne.mpr hremark]
  rfl

theorem isNameChar_of_isPlainIdentifier {s : List Char} (h : isPlainIdentifier s = true) :
    ∀ c ∈ s, isNameChar c = true := by
  cases s with
  | nil => nofun
  | cons c s =>
    rw [isPlainIdentifier, Bool.and_eq_true, List.all_eq_true] at h
    intro d hd
    rcases List.mem_cons.mp hd with rfl | hd
    · unfold isNameChar
      rw [Bool.or_right_comm, h.1, Bool.true_or]
    · exact h.2 d hd

theorem isPlainText_of_isPlainIdentifier {s : List Char} (h : isPlainIdentifier s = true) :
    IsPlainText s := fun c hc => isPlainChar_of_isNameChar (isNameChar_of_isPlainIdentifier h c hc)

/-- No quote stands in a plain identifier, so letters at its head begin no quoted text. -/
theorem takeText?_of_isPlainIdentifier {s : List Char} (h : isPlainIdentifier s = true) :
    takeText? s = none := by
  rw [takeText?_eq_none]
  unfold startsQuoted
  rw [Bool.and_eq_false_iff]
  right
  cases hrest : s.dropWhile isAsciiLetter with
  | nil => rfl
  | cons c rest =>
    have hc : isNameChar c = true := by
      refine isNameChar_of_isPlainIdentifier h c ((List.dropWhile_suffix isAsciiLetter).subset ?_)
      rw [hrest]
      exact List.mem_cons_self
    have hquote : c ≠ '\'' ∧ c ≠ '"' := by
      constructor
      · rintro rfl
        cases hc
      · rintro rfl
        cases hc
    simp [hquote]

section

variable {name : String}

/-- A plain identifier is a single word. -/
theorem lexes_of_isPlainIdentifier (h : isPlainIdentifier name.toList = true) :
    Lexes name.toList [.name name] := by
  have htext := takeText?_of_isPlainIdentifier h
  have hplain := isPlainText_of_isPlainIdentifier h
  have hchars := isNameChar_of_isPlainIdentifier h
  have hname : String.ofList name.toList = name := String.ofList_toList
  cases hlist : name.toList with
  | nil =>
    rw [hlist] at h
    cases h
  | cons c s =>
    rw [hlist] at h htext hplain hchars hname
    rw [isPlainIdentifier, Bool.and_eq_true] at h
    have hparts : ∀ d ∈ s, isIdentifierPart d = true := fun d hd => by
      rw [isIdentifierPart_of_plain (hplain d (List.mem_cons_of_mem c hd))]
      exact hchars d (List.mem_cons_of_mem c hd)
    have hstart : isIdentifierStart c = true := by
      rw [isIdentifierStart_of_plain (hplain c List.mem_cons_self)]
      exact h.1
    have htoken := takeToken?_of_name htext hstart
    rw [List.takeWhile_eq_self_iff.mpr hparts, List.dropWhile_eq_nil_iff.mpr hparts, hname] at htoken
    exact .word htoken rfl .nil

theorem readAll?_name (h : reservedWords.contains name = false) :
    readAll? [.name name] = some (.leaf (.name name)) :=
  (readAll?_eq_some_iff.mpr (Derives.expression_of_primary (.word (.name h) .primaryEnd))).1

theorem firstRefused_name :
    (Node.leaf (.name name)).firstRefused = if name.startsWith "__" then some "Name" else none := by
  have hrefusal : (Node.leaf (.name name)).refusal? =
      if name.startsWith "__" then some "Name" else none := rfl
  have hheight : (Node.leaf (.name name)).height = 1 := rfl
  unfold Node.firstRefused
  rw [hheight, Node.refusedWithin, List.findSome?_cons, hrefusal]
  cases name.startsWith "__" <;> rfl

/-- The words of a plain identifier as a text. -/
theorem tokensWithin?_of_isPlainIdentifier (h : isPlainIdentifier name.toList = true) :
    tokensWithin? (some deepestBracket) name = some [.name name] := by
  rw [tokensWithin?_some,
    (lexes_of_isPlainIdentifier h).tokensWithin? (isPlainText_of_isPlainIdentifier h),
    withinLimit_some]
  rfl

/-- A text that is a single name, unless it is a word of the grammar, is read as the node of it. -/
theorem Formula.read_name (h : tokensWithin? (some deepestBracket) name = some [.name name])
    (hword : reservedWords.contains name = false) :
    Formula.read name =
      if name.startsWith "__" then .error (.notArithmetic (some "Name"))
      else Formula.ofNode (.leaf (.name name)) := by
  have hdeepest : exceeds (some deepestBracket) (deepest 0 [.name name]) = false := by
    show decide (200 < max (0 + if (name.toList.all fun c => decide (c.toNat < 128)) then 0 else 1) 0) =
      false
    split <;> rfl
  have hchecked : Node.checked? [.name name] = some (.leaf (.name name)) := readAll?_name hword
  have hevaluated : Node.evaluated? [.name name] = some (.leaf (.name name)) := readAll?_name hword
  unfold Formula.read Formula.readWithin
  simp only [h, hchecked, hevaluated, firstRefused_name, hdeepest]
  cases name.startsWith "__" <;> rfl

/-! ## What names stand for -/

/-- The names that are never looked up: words of the grammar, functions, constants, kinds of numbers,
and those that begin with two low lines. -/
def isReservedName (name : String) : Bool :=
  reservedWords.contains name || (Fn.ofName? name).isSome || (Constant.ofName? name).isSome ||
    numberKindNames.contains name || name.startsWith "__"

/-- No word of the grammar is an expression with a value. -/
theorem Formula.read_of_reservedWord
    (h : tokensWithin? (some deepestBracket) name = some [.name name])
    (hword : reservedWords.contains name = true) : ∃ e, Formula.read name = .error e := by
  cases hread : Formula.read name with
  | error e => exact ⟨e, rfl⟩
  | ok f =>
    obtain ⟨ts, -, node, hwords, -, -, -, hnode, hmeaning⟩ := readWithin_eq_ok_iff.mp hread
    obtain rfl := Option.some.inj (h.symm.trans hwords)
    have hopens : (!reservedWords.contains name) = true :=
      (readAll?_eq_some_iff.mp ⟨hnode, Node.plain_of_meaning? hmeaning⟩).opens
    rw [hword] at hopens
    cases hopens

/-- A name that is not reserved is a variable. -/
theorem Formula.read_variable (h : tokensWithin? (some deepestBracket) name = some [.name name])
    (hfree : isReservedName name = false) : Formula.read name = .ok (.var name) := by
  simp only [isReservedName, Bool.or_eq_false_iff, Option.isSome_eq_false_iff,
    Option.isNone_iff_eq_none] at hfree
  obtain ⟨⟨⟨⟨hword, hfunction⟩, hconstant⟩, hkind⟩, hlines⟩ := hfree
  have hmeaning : (Node.leaf (.name name)).meaning? = some (.value (.var name)) := by
    show some (Meaning.ofName name) = _
    unfold Meaning.ofName
    rw [hfunction, hconstant, hkind]
    rfl
  rw [Formula.read_name h hword, hlines]
  exact Formula.ofNode_eq_ok_iff.mpr hmeaning

/-- A reserved name is an expression without a value, or one without variables. -/
theorem Formula.read_reserved (h : tokensWithin? (some deepestBracket) name = some [.name name])
    (hreserved : isReservedName name = true) :
    (∃ e, Formula.read name = .error e) ∨ ∃ c, Formula.read name = .ok (.constant c) := by
  cases hword : reservedWords.contains name with
  | true => exact .inl (Formula.read_of_reservedWord h hword)
  | false =>
    rw [Formula.read_name h hword]
    cases hlines : name.startsWith "__" with
    | true => exact .inl ⟨_, rfl⟩
    | false =>
      show (∃ e, Formula.ofNode (.leaf (.name name)) = .error e) ∨
        ∃ c, Formula.ofNode (.leaf (.name name)) = .ok (.constant c)
      have hmeaning : (Node.leaf (.name name)).meaning? = some (Meaning.ofName name) := rfl
      unfold Formula.ofNode
      rw [hmeaning]
      unfold Meaning.ofName
      cases hfunction : Fn.ofName? name with
      | some f => exact .inl ⟨_, rfl⟩
      | none =>
        cases hconstant : Constant.ofName? name with
        | some c => exact .inr ⟨c, rfl⟩
        | none =>
          cases hkind : numberKindNames.contains name with
          | true => exact .inl ⟨_, rfl⟩
          | false =>
            unfold isReservedName at hreserved
            rw [hword, hfunction, hconstant, hkind, hlines] at hreserved
            cases hreserved

/-- No table changes what a reserved name stands for. -/
theorem evaluateText_reserved (h : tokensWithin? (some deepestBracket) name = some [.name name])
    (hreserved : isReservedName name = true) (lookup lookup' : String → Option Float) :
    evaluateText lookup name = evaluateText lookup' name := by
  unfold evaluateText
  rcases Formula.read_reserved h hreserved with ⟨e, hread⟩ | ⟨c, hread⟩
  · rw [hread]
    rfl
  · rw [hread]
    refine Formula.value_congr fun id hid => ?_
    exact absurd (Formula.mem_names_of_mem_needed hid) List.not_mem_nil

/-! ## Values on the way through a term -/

/-- A finite number of the table is the value of a term, but for the minus of nought. -/
theorem Term.finiteFloat?_ofFloat {v : Float} (hv : v.isFinite = true) :
    (Term.number (.ofFloat v)).finiteFloat? = some (if v == 0.0 then 0.0 else v) := by
  have hcases := isFinite_eq v
  rw [hv, eq_comm, Bool.and_eq_true, Bool.not_eq_true', Bool.not_eq_true'] at hcases
  have hnumber : Extended.ofFloat v =
      .finite (.rounded (BigFloat.ofFloat v) Quantity.doubleDigits) := by
    unfold Extended.ofFloat
    rw [hcases.1, hcases.2]
    rfl
  have hback : ((BigFloat.ofFloat v).round Quantity.doubleDigits).toFloat =
      if v == 0.0 then 0.0 else v := BigFloat.toFloat_round_ofFloat hv
  have hfinite : (if v == 0.0 then 0.0 else v : Float).isFinite = true := by
    split
    · rfl
    · exact hv
  have hvalue : (Term.number (.ofFloat v)).value? =
      some (.ofReal (BigFloat.ofFloat v)) := by
    rw [hnumber]
    rfl
  have hre : (BigComplex.ofReal (BigFloat.ofFloat v)).re = BigFloat.ofFloat v := rfl
  have hreal : (BigComplex.ofReal (BigFloat.ofFloat v)).isReal = true := rfl
  unfold Term.finiteFloat?
  rw [hvalue]
  simp only [hre, hreal, hback, hfinite, Bool.and_self, if_true]

theorem Formula.normal_var : (Formula.var name).normal = .var 0 := by
  unfold normal term
  exact congrArg Term.var List.idxOf_cons_self

/-- A variable by itself needs its value. -/
theorem Formula.needed_var : (Formula.var name).needed = [name] := by
  unfold needed
  rw [normal_var]
  exact List.mergeSort_singleton name

/-- A variable with a finite value has this value. -/
theorem Formula.value_var {lookup : String → Option Float} {v : Float} (hv : v.isFinite = true)
    (hlookup : lookup name = some v) :
    (Formula.var name).value lookup = .ok (if v == 0.0 then 0.0 else v) := by
  have hfirst : (Formula.var name).names[0]?.bind lookup = some v := hlookup
  unfold value
  rw [needed_var, normal_var]
  simp only [List.filter_cons, hlookup, Option.isNone_some, List.filter_nil, Term.substitute, hfirst,
    Term.finiteFloat?_ofFloat hv]
  rfl

end

/-! ## Binding a name -/

/-- A plain identifier with a finite value is an expression with this value, under any settings that
leave place for expressions, unless the name is reserved. A reserved name can be bound as well, but
it is never looked up. -/
theorem evaluate_bound_name (s : Settings) (b b' : Bindings Float) (name : String) (v : Float)
    (hv : v.isFinite = true) (hset : b.assign (.text name) (.number v) = .ok b') :
    (isReservedName name = false →
      s.evaluate b' name = s.checkCacheSize.map fun _ => if v == 0.0 then 0.0 else v) ∧
    (isReservedName name = true → ∀ table, s.evaluate table name = s.evaluate .empty name) := by
  obtain ⟨hplain, rfl⟩ := Bindings.assign_eq_ok_iff.mp hset
  constructor
  · intro hfree
    have hvalue : (b.set name v).evaluate name = .ok (if v == 0.0 then 0.0 else v) := by
      rw [Bindings.evaluate_eq_ok_iff]
      unfold evaluateText
      rw [Formula.read_variable (tokensWithin?_of_isPlainIdentifier hplain) hfree]
      exact Formula.value_var hv Bindings.get?_set_self
    unfold Settings.evaluate
    rw [hvalue]
    cases s.checkCacheSize <;> rfl
  · intro hreserved table
    have hsame : table.evaluate name = Bindings.empty.evaluate name := by
      unfold Bindings.evaluate
      rw [evaluateText_reserved (tokensWithin?_of_isPlainIdentifier hplain) hreserved]
    unfold Settings.evaluate
    rw [hsame]

/-- A name that other libraries keep for the base of the natural logarithm, and one that is
reserved. -/
theorem evaluate_bound_e :
    (∃ b, Bindings.empty.assign (.text "E") (.number 0.1) = .ok b ∧
      Settings.default.evaluate b "E" = .ok 0.1) ∧
    ∃ b, Bindings.empty.assign (.text "sin") (.number 0.1) = .ok b ∧
      Settings.default.evaluate b "sin" = Settings.default.evaluate .empty "sin" := by
  have hv : (0.1 : Float).isFinite = true := rfl
  have hzero : ((0.1 : Float) == 0.0) = false := rfl
  have hE : Bindings.empty.assign (.text "E") (.number 0.1) = .ok ⟨[("E", 0.1)]⟩ := rfl
  have hsin : Bindings.empty.assign (.text "sin") (.number 0.1) = .ok ⟨[("sin", 0.1)]⟩ := rfl
  refine ⟨⟨_, hE, ?_⟩, _, hsin, ?_⟩
  · have hvalue := (evaluate_bound_name .default _ _ "E" 0.1 hv hE).1 rfl
    rw [hvalue, hzero]
    rfl
  · exact (evaluate_bound_name .default _ _ "sin" 0.1 hv hsin).2 rfl _

/-- A binding that is accepted and ignored, and one that is accepted and can not be used. -/
theorem bound_names_without_effect :
    (∃ b, Bindings.empty.assign (.text "pi") (.number 1.0) = .ok b ∧
      (Settings.default.evaluate b "pi").isOk = true ∧
      Settings.default.evaluate b "pi" ≠ .ok 1.0) ∧
    ∃ b, Bindings.empty.assign (.text "lambda") (.number 1.0) = .ok b ∧
      Settings.default.evaluate b "lambda" = .error (.noValue "lambda" .malformed) :=
  ⟨⟨_, rfl, by decide +kernel, by decide +kernel⟩, _, rfl, by decide +kernel⟩

end QuantumGates
