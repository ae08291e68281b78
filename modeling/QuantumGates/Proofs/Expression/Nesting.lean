-- How deep the brackets of a text are nested, those included that its numbers get when they are
-- evaluated. A limit refuses the texts that are nested beyond it and changes nothing else, so a
-- text is read within a limit as it is read without one. Words of arithmetic end at the depth at
-- which they begin, which gives the nesting of a text put together from others.
import Mathlib.Order.MinMax
import QuantumGates.Proofs.Expression.Written

namespace QuantumGates

/-! ## The limit -/

/-- The greatest depth of brackets in a list of words that begins at a depth. -/
def bracketDepth : ℕ → List Token → ℕ
  | depth, [] => depth
  | depth, t :: ts => max depth (bracketDepth (depthAfterWord depth t) ts)

theorem le_bracketDepth (depth : ℕ) (ts : List Token) : depth ≤ bracketDepth depth ts := by
  cases ts with
  | nil => exact Nat.le_refl depth
  | cons t ts => exact Nat.le_max_left _ _

theorem deepest_cons (depth : ℕ) (t : Token) (ts : List Token) :
    deepest depth (t :: ts) = max (depth + t.wrapping) (deepest (depthAfterWord depth t) ts) := rfl

theorem le_deepest (depth : ℕ) (ts : List Token) : depth ≤ deepest depth ts := by
  cases ts with
  | nil => exact Nat.le_refl depth
  | cons t ts => exact (Nat.le_add_right depth _).trans (Nat.le_max_left _ _)

theorem bracketDepth_le_deepest (depth : ℕ) (ts : List Token) :
    bracketDepth depth ts ≤ deepest depth ts := by
  induction ts generalizing depth with
  | nil => exact Nat.le_refl depth
  | cons t ts ih => exact max_le_max (Nat.le_add_right depth _) (ih _)

theorem exceeds_of_le {bound : Option ℕ} {m n : ℕ} (hmn : m ≤ n) (h : exceeds bound n = false) :
    exceeds bound m = false := by
  cases bound with
  | none => rfl
  | some limit =>
    simp only [exceeds, Option.any_some, decide_eq_false_iff_not] at h ⊢
    omega

/-- The words if their brackets are nested within a limit. -/
def withinLimit (limit depth : ℕ) (words : Option (List Token)) : Option (List Token) :=
  words.filter fun ts => decide (bracketDepth depth ts ≤ limit)

section

variable {limit depth : ℕ}

theorem withinLimit_some (ts : List Token) :
    withinLimit limit depth (some ts) =
      if bracketDepth depth ts ≤ limit then some ts else none := by
  simp only [withinLimit, Option.filter_some, decide_eq_true_eq]

theorem withinLimit_nil (hdepth : depth ≤ limit) :
    withinLimit limit depth (some []) = some [] := by
  rw [withinLimit_some]
  exact if_pos hdepth

theorem withinLimit_of_lt (words : Option (List Token)) (hdepth : limit < depth) :
    withinLimit limit depth words = none := by
  refine Option.filter_eq_none_iff.mpr fun ts _ => ?_
  have hle := le_bracketDepth depth ts
  simp only [decide_eq_true_eq]
  omega

theorem withinLimit_map {t : Token} (words : Option (List Token)) (hdepth : depth ≤ limit) :
    withinLimit limit depth (words.map (t :: ·)) =
      (withinLimit limit (depthAfterWord depth t) words).map (t :: ·) := by
  cases words with
  | none => rfl
  | some ts =>
    have hrest : bracketDepth depth (t :: ts) ≤ limit ↔
        bracketDepth (depthAfterWord depth t) ts ≤ limit := Nat.max_le.trans (and_iff_right hdepth)
    simp only [Option.map_some, withinLimit_some, hrest]
    split
    · rfl
    · rfl

/-- A limit keeps the words of the texts that are nested within it. -/
theorem tokensFrom_some (fuel : ℕ) (begun : Bool) (s : List Char) (hdepth : depth ≤ limit) :
    tokensFrom (some limit) fuel depth begun s =
      withinLimit limit depth (tokensFrom none fuel depth begun s) := by
  have hnil : some [] = withinLimit limit depth (some []) := (withinLimit_nil hdepth).symm
  induction fuel generalizing depth begun s with
  | zero =>
    unfold tokensFrom
    split
    · exact hnil
    · rfl
  | succ fuel ih =>
    rw [tokensFrom.eq_def, tokensFrom.eq_def none]
    simp only
    split
    · exact hnil
    · split
      · rfl
      · exact ih begun _ hdepth hnil
    · split
      · exact ih begun _ hdepth hnil
      · split
        · exact ih begun _ hdepth hnil
        · split
          · split
            · exact ih begun _ hdepth hnil
            · split
              · split
                · exact hnil
                · rfl
              · split
                · rfl
                · exact ih begun _ hdepth hnil
          · split
            · rfl
            · rename_i t tail _
              -- the depth after the word decides whether the limit ends the reading here
              show (if decide (limit < depthAfterWord depth t) = true then none
                else Option.map (t :: ·)
                  (tokensFrom (some limit) fuel (depthAfterWord depth t) true tail)) =
                withinLimit limit depth (Option.map (t :: ·)
                  (tokensFrom none fuel (depthAfterWord depth t) true tail))
              rw [withinLimit_map _ hdepth]
              by_cases hlt : limit < depthAfterWord depth t
              · rw [if_pos (decide_eq_true hlt), withinLimit_of_lt _ hlt]
                rfl
              · have hle := Nat.not_lt.mp hlt
                rw [if_neg (by simpa using hle), ih true tail hle (withinLimit_nil hle).symm]

end

/-- How deep the brackets of a text are nested. -/
def nestingOf (text : String) : ℕ := ((tokensWithin? none text).map (deepest 0)).getD 0

theorem tokensWithin?_some (limit : ℕ) (text : String) :
    tokensWithin? (some limit) text = withinLimit limit 0 (tokensWithin? none text) := by
  unfold tokensWithin?
  simp only
  split
  · rfl
  · exact tokensFrom_some _ false _ (Nat.zero_le limit)

namespace Formula

variable {text : String} {f : Formula} {limit : ℕ}

/-- What is read without a limit is read within one, if it is nested within it. -/
theorem readWithin_some (limit : ℕ) (h : readWithin none text = .ok f) :
    readWithin (some limit) text = if nestingOf text ≤ limit then .ok f else .error .malformed := by
  obtain ⟨ts, c, node, hwords, hc, haccepted, -, hnode, hf⟩ := readWithin_eq_ok_iff.mp h
  have hle := bracketDepth_le_deepest 0 ts
  have hlimited := tokensWithin?_some limit text
  unfold nestingOf
  rw [hwords, Option.map_some, Option.getD_some]
  rw [hwords, withinLimit_some] at hlimited
  split
  · rename_i hdeepest
    rw [if_pos (hle.trans hdeepest)] at hlimited
    refine readWithin_eq_ok_iff.mpr ⟨ts, c, node, hlimited, hc, haccepted, ?_, hnode, hf⟩
    simpa [exceeds] using hdeepest
  · rename_i hdeepest
    have hexceeds : exceeds (some limit) (deepest 0 ts) = true := by simpa [exceeds] using hdeepest
    unfold readWithin
    rw [hlimited]
    split_ifs with hdepth
    · simp only [hc, (Node.firstRefused_eq_none c).mpr haccepted, hexceeds, if_true]
    · rfl

/-- What is read within a limit is read without one. -/
theorem readWithin_none_of_some (h : readWithin (some limit) text = .ok f) :
    readWithin none text = .ok f := by
  obtain ⟨ts, c, node, hlimited, hc, haccepted, -, hnode, hf⟩ := readWithin_eq_ok_iff.mp h
  rw [tokensWithin?_some] at hlimited
  obtain ⟨hwords, -⟩ := Option.filter_eq_some_iff.mp hlimited
  exact readWithin_eq_ok_iff.mpr ⟨ts, c, node, hwords, hc, haccepted, rfl, hnode, hf⟩

variable {bound : Option ℕ}

theorem readWithin_unlimited (h : readWithin bound text = .ok f) : readWithin none text = .ok f := by
  cases bound with
  | none => exact h
  | some n => exact readWithin_none_of_some h

theorem readWithin_of_nesting (h : readWithin none text = .ok f)
    (hbound : exceeds bound (nestingOf text) = false) : readWithin bound text = .ok f := by
  cases bound with
  | none => exact h
  | some n =>
    rw [readWithin_some n h]
    exact if_pos (by simpa [exceeds] using hbound)

/-- What is read within a limit is nested within it. -/
theorem nesting_of_readWithin (h : readWithin bound text = .ok f) :
    exceeds bound (nestingOf text) = false := by
  cases bound with
  | none => rfl
  | some n =>
    rw [readWithin_some n (readWithin_none_of_some h)] at h
    split at h
    · rename_i hn
      simpa [exceeds] using hn
    · cases h

end Formula

/-! ## Words with brackets in pairs -/

/-- The depth of brackets after several words. -/
def depthAfterWords (depth : ℕ) (ts : List Token) : ℕ := ts.foldl depthAfterWord depth

section

variable {ts us : List Token}

theorem deepest_append (depth : ℕ) :
    deepest depth (ts ++ us) = max (deepest depth ts) (deepest (depthAfterWords depth ts) us) := by
  induction ts generalizing depth with
  | nil => exact (max_eq_right (le_deepest depth us)).symm
  | cons t ts ih =>
    rw [List.cons_append, deepest_cons, ih, ← max_assoc]
    rfl

/-- The bracket that is open closes among the words before the last one, or it is as if `level`
brackets were open before what comes after the words, whatever else is open around them. -/
theorem closesLast_cases (hplain : ∀ t ∈ ts, t.isPlain = true) (depth : ℕ) :
    (∀ r, r ≠ [] → closesLast (depth + 1) (ts ++ r) = false) ∨
      ∃ level, (∀ r, closesLast (depth + 1) (ts ++ r) = closesLast (level + 1) r) ∧
        ∀ k, depthAfterWords (depth + k) ts = level + k ∧
          deepest (depth + k) ts = deepest depth ts + k := by
  induction ts generalizing depth with
  | nil => exact .inr ⟨depth, fun _ => rfl, fun _ => ⟨rfl, rfl⟩⟩
  | cons t ts ih =>
    have hrest : ∀ u ∈ ts, u.isPlain = true := fun u hu => hplain u (List.mem_cons_of_mem t hu)
    -- every word but the bracket that closes goes on at another depth
    have hstep : ∀ depth', (∀ r, closesLast (depth + 1) (t :: r) = closesLast (depth' + 1) r) →
        (∀ k, depthAfterWord (depth + k) t = depth' + k) →
        (∀ r, r ≠ [] → closesLast (depth + 1) (t :: ts ++ r) = false) ∨
          ∃ level, (∀ r, closesLast (depth + 1) (t :: ts ++ r) = closesLast (level + 1) r) ∧
            ∀ k, depthAfterWords (depth + k) (t :: ts) = level + k ∧
              deepest (depth + k) (t :: ts) = deepest depth (t :: ts) + k := by
      intro depth' hcloses hafter
      refine (ih hrest depth').imp (fun hnone r hr => (hcloses _).trans (hnone r hr)) ?_
      rintro ⟨level, hlevel, hshift⟩
      refine ⟨level, fun r => (hcloses _).trans (hlevel r), fun k => ?_⟩
      obtain ⟨hwords, hdeepest⟩ := hshift k
      have hfirst := hafter 0
      rw [Nat.add_zero, Nat.add_zero] at hfirst
      unfold depthAfterWords
      rw [List.foldl_cons, hafter, deepest_cons, deepest_cons, hafter, hfirst]
      exact ⟨hwords, by omega⟩
    cases t with
    | sign s =>
      cases s with
      | openRound =>
        refine hstep (depth + 1) (fun _ => rfl) fun k => ?_
        exact Nat.add_right_comm depth k 1
      | closeRound =>
        cases depth with
        | zero =>
          refine .inl fun r hr => ?_
          show (ts ++ r).isEmpty = false
          simp [hr]
        | succ depth =>
          refine hstep depth (fun _ => rfl) fun k => ?_
          show depth + 1 + k - 1 = depth + k
          omega
      | openSquare | closeSquare | openCurly | closeCurly =>
        cases hplain _ List.mem_cons_self
      | _ => exact hstep depth (fun _ => rfl) fun _ => rfl
    | _ => exact hstep depth (fun _ => rfl) fun _ => rfl

/-- Words with brackets in pairs end at the depth at which they begin. -/
theorem Balanced.depthAfterWords (h : Balanced ts) (depth : ℕ) :
    QuantumGates.depthAfterWords depth ts = depth ∧ deepest depth ts = deepest 0 ts + depth := by
  -- a bracket around the words closes right after them
  have hcloses := h.closes (0 + 1) [.sign .closeRound] Nat.one_pos
  rcases closesLast_cases h.plain 0 with hnone | ⟨level, hlevel, hshift⟩
  · have hopen := hnone [.sign .closeRound] (List.cons_ne_nil _ _)
    rw [hcloses] at hopen
    cases hopen
  · rw [hlevel] at hcloses
    have hzero : level = 0 := by
      cases level with
      | zero => rfl
      | succ n => cases hcloses
    rw [hzero] at hshift
    simpa only [Nat.zero_add] using hshift depth

theorem Balanced.deepest_append (h : Balanced ts) :
    deepest 0 (ts ++ us) = max (deepest 0 ts) (deepest 0 us) := by
  rw [QuantumGates.deepest_append, (h.depthAfterWords 0).1]

theorem Balanced.deepest_brackets (h : Balanced ts) :
    deepest 0 (.sign .openRound :: ts ++ [.sign .closeRound]) = deepest 0 ts + 1 := by
  have hclose : deepest 1 [.sign .closeRound] = 1 := rfl
  obtain ⟨hafter, hdeepest⟩ := h.depthAfterWords 1
  have hopen : deepest 0 (.sign .openRound :: ts ++ [.sign .closeRound]) =
      max 0 (deepest 1 (ts ++ [.sign .closeRound])) := rfl
  rw [hopen, QuantumGates.deepest_append, hafter, hclose, hdeepest]
  omega

end

/-! ## Nested texts -/

/-- The words of the text have their brackets in pairs, and they are nested to the depth `n`. -/
def NestedTo (n : ℕ) (s : List Char) : Prop := ∃ ts, Lexes s ts ∧ Balanced ts ∧ deepest 0 ts = n

namespace NestedTo

variable {m n : ℕ} {s u : List Char}

theorem brackets (h : NestedTo n s) : NestedTo (n + 1) ('(' :: s ++ [')']) := by
  obtain ⟨ts, hs, hbalanced, rfl⟩ := h
  exact ⟨_, .word rfl rfl (hs.append (.word rfl rfl .nil) rfl), hbalanced.brackets,
    hbalanced.deepest_brackets⟩

theorem negate (h : NestedTo n s) : NestedTo n ('-' :: s) := by
  obtain ⟨ts, hs, hbalanced, rfl⟩ := h
  have hminus : Balanced [.sign .minus] := balanced_singleton rfl (by simp) (by simp)
  refine ⟨_, .word (takeToken?_minus hs) rfl hs, hminus.append hbalanced, ?_⟩
  exact hminus.deepest_append.trans (Nat.zero_max _)

/-- Two texts with a sign between them that is no bracket. -/
theorem join {sign : String} {g : Sign} {o : Operator} (hsign : Joins sign g o)
    (hg : Balanced [.sign g]) (hs : NestedTo m s) (hu : NestedTo n u) :
    NestedTo (max m n) (s ++ ' ' :: (sign.toList ++ ' ' :: u)) := by
  obtain ⟨ts, hs, hts, rfl⟩ := hs
  obtain ⟨us, hu, hus, rfl⟩ := hu
  have hdeepest : deepest 0 [.sign g] = 0 := by
    have hafter : depthAfterWord 0 (.sign g) = 0 := (hg.depthAfterWords 0).1
    rw [deepest_cons, hafter]
    rfl
  refine ⟨ts ++ ([.sign g] ++ us), hs.append (.blank (.word (hsign.word u) hsign.arithmetic
    (.blank hu))) rfl, hts.append (hg.append hus), ?_⟩
  rw [hts.deepest_append, hg.deepest_append, hdeepest, Nat.zero_max]

/-- A text has the nesting of its words. -/
theorem nesting_eq {text : String} (h : NestedTo n text.toList)
    (hplain : IsPlainText text.toList) : nestingOf text = n := by
  obtain ⟨ts, hs, -, rfl⟩ := h
  unfold nestingOf
  rw [hs.tokensWithin? hplain]
  rfl

/-- A text in brackets is nested one deeper than what stands in them. -/
theorem nesting_brackets {text : String} (h : NestedTo n s) (hplain : IsPlainText text.toList)
    (htext : text.toList = '(' :: s ++ [')']) : nestingOf text = n + 1 :=
  nesting_eq (htext ▸ h.brackets) hplain

end NestedTo

theorem IsPlainExpression.nestedTo {text : String} (h : IsPlainExpression text) :
    NestedTo (nestingOf text) text.toList := by
  obtain ⟨ts, c, -, -, hwords, hs, hc, -⟩ := h.words
  refine ⟨ts, hs, hc.balanced, ?_⟩
  unfold nestingOf
  rw [hwords]
  rfl

/-- An expression as an operand may stand in brackets of its own. -/
theorem IsPlainExpression.operand_nestedTo {text : String} (h : IsPlainExpression text) :
    ∃ n, NestedTo n (if isAtomic text then text else "(" ++ text ++ ")").toList ∧
      nestingOf text ≤ n ∧ n ≤ nestingOf text + 1 := by
  split
  · exact ⟨_, h.nestedTo, Nat.le_refl _, Nat.le_succ _⟩
  · rw [toList_brackets]
    exact ⟨_, h.nestedTo.brackets, Nat.le_succ _, Nat.le_refl _⟩

/-- A text in several brackets. -/
def bracketed : ℕ → List Char → List Char
  | 0, s => s
  | n + 1, s => '(' :: bracketed n s ++ [')']

end QuantumGates
