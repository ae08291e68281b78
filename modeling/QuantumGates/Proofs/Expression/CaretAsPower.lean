-- Carets as powers. A text is checked with a caret for exclusive or and evaluated with one for a
-- power. The readings differ in their trees, but not in what they accept, so a text and the text
-- with powers for carets pass the check together and have the same value or none.
import QuantumGates.Proofs.Expression.Dependence
import QuantumGates.Proofs.Expression.PoweredTexts
import QuantumGates.Proofs.Expression.UnrankedGrammar
import QuantumGates.Proofs.Results

namespace QuantumGates

/-! ## Carets for powers -/

/-- The words are the same but for carets that may stand for powers. -/
def Alike (ts us : List Token) : Prop := ts.map Token.caretAsPower = us.map Token.caretAsPower

section

variable {ts us vs : List Token} {t u : Token} {y : Node} {s : Sign}

theorem Alike.nil_right (h : Alike us []) : us = [] := List.map_eq_nil_iff.mp h

theorem Alike.cons_right (h : Alike us (t :: ts)) :
    ∃ u vs, us = u :: vs ∧ u.caretAsPower = t.caretAsPower ∧ Alike vs ts := by
  obtain ⟨u, vs, rfl, hu, hvs⟩ := List.map_eq_cons_iff.mp h
  exact ⟨u, vs, rfl, hu, hvs⟩

theorem Alike.append_right (h : Alike us (ts ++ vs)) :
    ∃ as bs, us = as ++ bs ∧ Alike as ts ∧ Alike bs vs := by
  unfold Alike at h
  rw [List.map_append] at h
  obtain ⟨as, bs, rfl, has, hbs⟩ := List.map_eq_append_iff.mp h
  exact ⟨as, bs, rfl, has, hbs⟩

/-- A word between others. -/
theorem Alike.append_cons_right (h : Alike us (ts ++ t :: vs)) :
    ∃ as u bs, us = as ++ u :: bs ∧ Alike as ts ∧ u.caretAsPower = t.caretAsPower ∧
      Alike bs vs := by
  obtain ⟨as, bs, rfl, has, hbs⟩ := h.append_right
  obtain ⟨u, bs, rfl, hu, hbs⟩ := hbs.cons_right
  exact ⟨as, u, bs, rfl, has, hu, hbs⟩

/-- A word is kept, or is a caret or a power and stands for one of these. -/
theorem eq_or_raises (h : u.caretAsPower = t.caretAsPower) :
    u = t ∨ (u = .sign .caret ∨ u = .sign .power) ∧ (t = .sign .caret ∨ t = .sign .power) := by
  by_cases hu : u = .sign .caret
  · subst hu
    by_cases ht : t = .sign .caret
    · exact .inl ht.symm
    · rw [caretAsPower_of_ne ht] at h
      exact .inr ⟨.inl rfl, .inr h.symm⟩
  · rw [caretAsPower_of_ne hu] at h
    by_cases ht : t = .sign .caret
    · subst ht
      exact .inr ⟨.inr h, .inl rfl⟩
    · rw [caretAsPower_of_ne ht] at h
      exact .inl h

theorem eq_of_caretAsPower (h : u.caretAsPower = t.caretAsPower) (hcaret : t ≠ .sign .caret)
    (hpower : t ≠ .sign .power) : u = t := by
  rcases eq_or_raises h with h | ⟨-, h | h⟩
  · exact h
  · exact absurd h hcaret
  · exact absurd h hpower

theorem AtomWord.eq_of_caretAsPower (ht : AtomWord t y) (h : u.caretAsPower = t.caretAsPower) :
    u = t := by
  cases ht <;> exact QuantumGates.eq_of_caretAsPower h nofun nofun

/-- What stands in brackets. -/
theorem Alike.brackets_right (h : Alike us (.sign .openRound :: (ts ++ [.sign .closeRound]))) :
    ∃ as, us = .sign .openRound :: (as ++ [.sign .closeRound]) ∧ Alike as ts := by
  obtain ⟨u, bs, rfl, hu, hbs⟩ := h.cons_right
  obtain ⟨as, v, cs, rfl, has, hv, hcs⟩ := hbs.append_cons_right
  obtain rfl := hcs.nil_right
  rw [eq_of_caretAsPower hu nofun nofun, eq_of_caretAsPower hv nofun nofun]
  exact ⟨as, rfl, has⟩

theorem Bracketed.alike (h : Bracketed t y ts) (halike : Alike us ts) : Bracketed t y us := by
  induction h generalizing us with
  | word ht =>
    obtain ⟨u, vs, rfl, hu, hvs⟩ := halike.cons_right
    rw [hvs.nil_right, ht.eq_of_caretAsPower hu]
    exact .word ht
  | brackets _ ih =>
    obtain ⟨as, rfl, has⟩ := halike.brackets_right
    exact .brackets (ih has)

theorem operator_of_caretAsPower {o : Operator} (h : u.caretAsPower = (Token.sign s).caretAsPower)
    (ho : operatorNode s = some (.leaf (.operator o))) :
    ∃ s' o', u = .sign s' ∧ operatorNode s' = some (.leaf (.operator o')) := by
  rcases eq_or_raises h with rfl | ⟨rfl | rfl, -⟩
  · exact ⟨s, o, rfl, ho⟩
  · exact ⟨.caret, .xor, rfl, rfl⟩
  · exact ⟨.power, .pow, rfl, rfl⟩

/-- Arithmetic without strengths does not tell a caret from a power. -/
theorem Arithmetic.alike {form : Form} (h : Arithmetic form ts) (halike : Alike us ts) :
    Arithmetic form us := by
  induction h generalizing us with
  | word ht hy =>
    obtain ⟨u, vs, rfl, hu, hvs⟩ := halike.cons_right
    rw [hvs.nil_right, ht.eq_of_caretAsPower hu]
    exact .word ht hy
  | brackets _ ih =>
    obtain ⟨as, rfl, has⟩ := halike.brackets_right
    exact .brackets (ih has)
  | call ht hy hfunction _ ih =>
    obtain ⟨as, bs, rfl, has, hbs⟩ := halike.append_right
    obtain ⟨cs, rfl, hcs⟩ := hbs.brackets_right
    exact .call (ht.alike has) hy hfunction (ih hcs)
  | unsigned _ ih => exact .unsigned (ih halike)
  | signed ho _ ih =>
    obtain ⟨u, vs, rfl, hu, hvs⟩ := halike.cons_right
    rw [eq_of_caretAsPower hu (by rintro ⟨⟩; cases ho) (by rintro ⟨⟩; cases ho)]
    exact .signed ho (ih hvs)
  | single _ ih => exact .single (ih halike)
  | join ho _ _ ih ih' =>
    obtain ⟨as, u, bs, rfl, has, hu, hbs⟩ := halike.append_cons_right
    obtain ⟨s', o', rfl, ho'⟩ := operator_of_caretAsPower hu ho
    exact .join ho' (ih has) (ih' hbs)
  | none =>
    rw [halike.nil_right]
    exact .none
  | last _ ih => exact .last (ih halike)
  | more _ _ ih ih' =>
    obtain ⟨as, u, bs, rfl, has, hu, hbs⟩ := halike.append_cons_right
    rw [eq_of_caretAsPower hu nofun nofun]
    exact .more (ih has) (ih' hbs)

end

section

variable {ts us : List Token} {s : Sign} {o : Operator} {form : Form}

/-! ## Stars in arithmetic -/

/-- Words of arithmetic with their stars apart, which neither begin nor end in a star. -/
structure Tight (ts : List Token) : Prop extends StarsApart ts where
  head : ∀ t ∈ ts.head?, t.isStar = false
  last : ∀ t ∈ ts.getLast?, t.isStar = false

theorem tight_nil : Tight [] := ⟨⟨nofun, .nil⟩, nofun, nofun⟩

theorem tight_singleton {t : Token} (hplain : t.isPlain = true) (ht : t.isStar = false) :
    Tight [t] where
  plain := List.forall_mem_singleton.mpr hplain
  apart := .singleton t
  head _ hu := (Option.some.inj hu) ▸ ht
  last _ hu := (Option.some.inj hu) ▸ ht

theorem Tight.append (h : Tight ts) (h' : Tight us) : Tight (ts ++ us) where
  plain t ht := (List.mem_append.mp ht).elim (h.plain t) (h'.plain t)
  apart := h.apart.append h'.apart fun t ht u _ hstars => by
    rw [h.last t ht] at hstars
    cases hstars.1
  head t ht := by
    cases ts with
    | nil => exact h'.head t ht
    | cons u ts => exact h.head t ht
  last t ht := by
    cases us with
    | nil =>
      rw [List.append_nil] at ht
      exact h.last t ht
    | cons u us =>
      rw [List.getLast?_append_of_ne_nil ts (List.cons_ne_nil u us)] at ht
      exact h'.last t ht

/-- Any sign may stand between words that are there. -/
theorem Tight.join {t : Token} (h : Tight ts) (h' : Tight us) (ht : t.isPlain = true)
    (hts : ts ≠ []) (hus : us ≠ []) : Tight (ts ++ t :: us) where
  plain u hu := by
    rcases List.mem_append.mp hu with hu | hu
    · exact h.plain u hu
    · rcases List.mem_cons.mp hu with rfl | hu
      · exact ht
      · exact h'.plain u hu
  apart := by
    refine h.apart.append ?_ fun u hu v _ hstars => ?_
    · obtain ⟨v, us, rfl⟩ := List.exists_cons_of_ne_nil hus
      refine List.isChain_cons_cons.mpr ⟨fun hstars => ?_, h'.apart⟩
      rw [h'.head v rfl] at hstars
      cases hstars.2
    · rw [h.last u hu] at hstars
      cases hstars.1
  head u hu := by
    obtain ⟨v, ts, rfl⟩ := List.exists_cons_of_ne_nil hts
    exact h.head u hu
  last u hu := by
    rw [List.getLast?_append_of_ne_nil ts (List.cons_ne_nil t us), ← List.singleton_append,
      List.getLast?_append_of_ne_nil [t] hus] at hu
    exact h'.last u hu

theorem Tight.brackets (h : Tight ts) : Tight (.sign .openRound :: (ts ++ [.sign .closeRound])) :=
  (tight_singleton rfl rfl : Tight [.sign .openRound]).append
    (h.append (tight_singleton rfl rfl))

theorem AtomWord.tight {t : Token} {y : Node} (h : AtomWord t y) : Tight [t] := by
  cases h <;> exact tight_singleton rfl rfl

theorem Bracketed.tight {t : Token} {y : Node} (h : Bracketed t y ts) : Tight ts := by
  induction h with
  | word ht => exact ht.tight
  | brackets _ ih => exact ih.brackets

theorem Arithmetic.tight (h : Arithmetic form ts) : Tight ts ∧ (form = .arguments ∨ ts ≠ []) := by
  induction h with
  | word ht _ => exact ⟨ht.tight, .inr (List.cons_ne_nil _ _)⟩
  | brackets _ ih => exact ⟨ih.1.brackets, .inr (List.cons_ne_nil _ _)⟩
  | call ht _ _ _ ih => exact ⟨ht.tight.append ih.1.brackets, .inr (by simp)⟩
  | unsigned _ ih => exact ⟨ih.1, .inr (ih.2.resolve_left nofun)⟩
  | @signed s o ts ho _ ih =>
    have hs : Tight [.sign s] := by
      cases s <;> cases ho <;> exact tight_singleton rfl rfl
    exact ⟨hs.append ih.1, .inr (List.cons_ne_nil _ _)⟩
  | single _ ih => exact ⟨ih.1, .inr (ih.2.resolve_left nofun)⟩
  | join ho _ _ ih ih' =>
    have hplain := (balanced_operator (.inl ho)).plain _ List.mem_cons_self
    exact ⟨ih.1.join ih'.1 hplain (ih.2.resolve_left nofun) (ih'.2.resolve_left nofun),
      .inr (by simp)⟩
  | none => exact ⟨tight_nil, .inl rfl⟩
  | last _ ih => exact ⟨ih.1, .inl rfl⟩
  | more _ _ ih ih' =>
    have hcomma : Tight [.sign .comma] := tight_singleton rfl rfl
    exact ⟨ih.1.append (hcomma.append ih'.1), .inl rfl⟩

/-! ## Both readings of a caret -/

theorem alike_caretAsPower (ts : List Token) : Alike (ts.map Token.caretAsPower) ts := by
  unfold Alike
  rw [List.map_map]
  exact List.map_congr_left fun t _ => caretAsPower_caretAsPower t

/-- Words are accepted with carets just when they are with powers for them. -/
theorem isAccepted_caretAsPower : IsAccepted (ts.map Token.caretAsPower) ↔ IsAccepted ts := by
  rw [isAccepted_iff, isAccepted_iff]
  exact ⟨fun h => h.alike (alike_caretAsPower ts).symm, fun h => h.alike (alike_caretAsPower ts)⟩

theorem deepest_caretAsPower (depth : ℕ) (ts : List Token) :
    deepest depth (ts.map Token.caretAsPower) = deepest depth ts := by
  induction ts generalizing depth with
  | nil => rfl
  | cons t ts ih =>
    have hwrapping : t.caretAsPower.wrapping = t.wrapping := by
      by_cases ht : t = .sign .caret
      · subst ht
        rfl
      · rw [caretAsPower_of_ne ht]
    rw [List.map_cons, deepest_cons, deepest_cons, depthAfterWord_caretAsPower, hwrapping, ih]

theorem evaluated?_caretAsPower (ts : List Token) :
    Node.evaluated? (ts.map Token.caretAsPower) = Node.evaluated? ts := by
  unfold Node.evaluated?
  exact congrArg readAll? (alike_caretAsPower ts)

end

/-! ## Texts -/

section

variable {limit : Option ℕ} {text : String} {ts us : List Token} {f : Formula}

/-- The words of a text that is accepted are those of the text with powers for carets. -/
theorem tokensWithin?_withPowers (h : tokensWithin? limit text = some ts) (hts : IsAccepted ts) :
    tokensWithin? limit (withPowers text) = some (ts.map Token.caretAsPower) :=
  (sameWords_withPowers limit text).forth ts h (isAccepted_iff.mp hts).tight.1.toStarsApart

theorem exists_of_tokensWithin?_withPowers (h : tokensWithin? limit (withPowers text) = some us)
    (hus : IsAccepted us) :
    ∃ ts, tokensWithin? limit text = some ts ∧ ts.map Token.caretAsPower = us :=
  (sameWords_withPowers limit text).back us h (isAccepted_iff.mp hus).tight.1.toStarsApart

/-- Which words are read as a formula, said of the words alone. -/
theorem Formula.readWithin_eq_ok_iff_isAccepted : Formula.readWithin limit text = .ok f ↔
    ∃ ts node, tokensWithin? limit text = some ts ∧ IsAccepted ts ∧
      exceeds limit (deepest 0 ts) = false ∧ Node.evaluated? ts = some node ∧
      node.meaning? = some (.value f) := by
  rw [readWithin_eq_ok_iff]
  constructor
  · rintro ⟨ts, checked, node, hwords, hchecked, haccepted, hrest⟩
    exact ⟨ts, node, hwords,
      ⟨checked, hchecked, (Node.firstRefused_eq_none checked).mpr haccepted⟩, hrest⟩
  · rintro ⟨ts, node, hwords, ⟨checked, hchecked, hrefused⟩, hrest⟩
    exact ⟨ts, checked, node, hwords, hchecked, (Node.firstRefused_eq_none checked).mp hrefused,
      hrest⟩

/-- A formula is read from a text just when it is read from the text with powers for carets. -/
theorem Formula.readWithin_withPowers :
    Formula.readWithin limit (withPowers text) = .ok f ↔ Formula.readWithin limit text = .ok f := by
  rw [readWithin_eq_ok_iff_isAccepted, readWithin_eq_ok_iff_isAccepted]
  constructor
  · rintro ⟨us, node, hus, haccepted, hdeepest, hnode, hf⟩
    obtain ⟨ts, hts, rfl⟩ := exists_of_tokensWithin?_withPowers hus haccepted
    rw [deepest_caretAsPower] at hdeepest
    rw [evaluated?_caretAsPower] at hnode
    exact ⟨ts, node, hts, isAccepted_caretAsPower.mp haccepted, hdeepest, hnode, hf⟩
  · rintro ⟨ts, node, hts, haccepted, hdeepest, hnode, hf⟩
    refine ⟨_, node, tokensWithin?_withPowers hts haccepted, isAccepted_caretAsPower.mpr haccepted,
      ?_, ?_, hf⟩
    · rw [deepest_caretAsPower, hdeepest]
    · rw [evaluated?_caretAsPower, hnode]

theorem evaluateText_eq_ok_iff {lookup : String → Option Float} {x : Float} :
    evaluateText lookup text = .ok x ↔ ∃ f, Formula.read text = .ok f ∧ f.value lookup = .ok x :=
  bind_eq_ok_iff

/-- The check of syntax accepts the text. -/
def PassesCheck (text : String) : Prop :=
  ∃ ts node, tokensWithin? (some deepestBracket) text = some ts ∧ Node.checked? ts = some node ∧
    node.firstRefused = none

theorem passesCheck_withPowers : PassesCheck (withPowers text) ↔ PassesCheck text := by
  constructor
  · rintro ⟨us, x, hus, hx, hrefused⟩
    have haccepted : IsAccepted us := ⟨x, hx, hrefused⟩
    obtain ⟨ts, hts, rfl⟩ := exists_of_tokensWithin?_withPowers hus haccepted
    obtain ⟨y, hy, hrefused⟩ := isAccepted_caretAsPower.mp haccepted
    exact ⟨ts, y, hts, hy, hrefused⟩
  · rintro ⟨ts, x, hts, hx, hrefused⟩
    have haccepted : IsAccepted ts := ⟨x, hx, hrefused⟩
    obtain ⟨y, hy, hrefused⟩ := isAccepted_caretAsPower.mpr haccepted
    exact ⟨_, y, tokensWithin?_withPowers hts haccepted, hy, hrefused⟩

end

/-- A text and the text with a double star for each caret have the same value under any settings and
any table, or both have none, and the check of syntax accepts both or neither. The reading of a text
that is evaluated is the one that is checked of the text with powers. Whatever the words of a text
are, the reading that is checked is accepted just when the one that is evaluated is. -/
theorem caret_read_as_power (s : Settings) (b : Bindings Float) (text : String) :
    (∀ x, s.evaluate b (withPowers text) = .ok x ↔ s.evaluate b text = .ok x) ∧
    (PassesCheck (withPowers text) ↔ PassesCheck text) ∧
    (PassesCheck text → ∃ ts us, tokensWithin? (some deepestBracket) text = some ts ∧
      tokensWithin? (some deepestBracket) (withPowers text) = some us ∧
      Node.evaluated? ts = Node.checked? us) ∧
    ∀ ts, (∃ x, Node.checked? ts = some x ∧ x.firstRefused = none) ↔
      ∃ x, Node.evaluated? ts = some x ∧ x.firstRefused = none := by
  refine ⟨fun x => ?_, passesCheck_withPowers, ?_, fun ts => isAccepted_caretAsPower.symm⟩
  · have hread (f : Formula) : Formula.read (withPowers text) = .ok f ↔ Formula.read text = .ok f :=
      Formula.readWithin_withPowers
    rw [Settings.evaluate_eq_ok_iff, Settings.evaluate_eq_ok_iff, Bindings.evaluate_eq_ok_iff,
      Bindings.evaluate_eq_ok_iff]
    refine and_congr_right fun _ => ?_
    simp only [evaluateText_eq_ok_iff, hread]
  · rintro ⟨ts, x, hts, hx, hrefused⟩
    exact ⟨ts, _, hts, tokensWithin?_withPowers hts ⟨x, hx, hrefused⟩, rfl⟩

/-- A caret after a negated name: the sign joins first where the text is checked, the caret where it
is evaluated. -/
theorem negated_caret_read_as_power :
    withPowers "-x^2" = "-x**2" ∧ PassesCheck "-x^2" ∧ PassesCheck "-x**2" ∧
      ∃ ts us, tokensWithin? (some deepestBracket) "-x^2" = some ts ∧
        tokensWithin? (some deepestBracket) "-x**2" = some us ∧
        Node.evaluated? ts = Node.checked? us := by
  have hpowers : withPowers "-x^2" = "-x**2" := rfl
  have hwords : tokensWithin? (some deepestBracket) "-x^2" =
      some [.sign .minus, .name "x", .sign .caret, .whole 2] := by decide +kernel
  have hpasses : PassesCheck "-x^2" := ⟨_, _, hwords, rfl, rfl⟩
  obtain ⟨-, hcheck, hreading, -⟩ := caret_read_as_power .default .empty "-x^2"
  rw [hpowers] at hcheck hreading
  exact ⟨hpowers, hpasses, hcheck.mpr hpasses, hreading hpasses⟩

end QuantumGates
