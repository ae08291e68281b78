-- Texts with their round brackets in pairs. What pairs up among the characters pairs up among the
-- words, so such a text keeps together wherever it is put.
import QuantumGates.Proofs.Expression.Enclosed
import QuantumGates.Proofs.Expression.Nesting
import QuantumGates.Proofs.Expression.Separation

namespace QuantumGates

/-! ## Characters that keep together -/

/-- Whether the round brackets of a text are in pairs, some being open before it. -/
def bracketsPair : ℕ → List Char → Bool
  | depth, [] => depth == 0
  | depth, c :: s =>
    if c = '(' then bracketsPair (depth + 1) s
    else if c = ')' then depth != 0 && bracketsPair (depth - 1) s
    else bracketsPair depth s

/-- Whether the commas of a text stand in round brackets, some being open before it. -/
def commasInside : ℕ → List Char → Bool
  | _, [] => true
  | depth, c :: s =>
    if c = '(' then commasInside (depth + 1) s
    else if c = ')' then commasInside (depth - 1) s
    else if c = ',' then depth != 0 && commasInside depth s
    else commasInside depth s

section

variable {s u w rest : List Char} {t : Token} {ts : List Token} {depth : ℕ}

theorem bracketsPair_append (hw : NoRound w) :
    bracketsPair depth (w ++ s) = bracketsPair depth s := by
  induction w with
  | nil => rfl
  | cons c w ih =>
    obtain ⟨hopen, hclose⟩ := hw c List.mem_cons_self
    rw [List.cons_append, bracketsPair, if_neg hopen, if_neg hclose]
    exact ih fun d hd => hw d (List.mem_cons_of_mem c hd)

theorem commasInside_append (hw : NoRound w) (h : commasInside depth (w ++ s) = true) :
    commasInside depth s = true := by
  induction w with
  | nil => exact h
  | cons c w ih =>
    obtain ⟨hopen, hclose⟩ := hw c List.mem_cons_self
    rw [List.cons_append, commasInside, if_neg hopen, if_neg hclose] at h
    refine ih (fun d hd => hw d (List.mem_cons_of_mem c hd)) ?_
    split at h
    · exact (Bool.and_eq_true_iff.mp h).2
    · exact h

theorem Lexes.plain (h : Lexes s ts) : ∀ t ∈ ts, t.isPlain = true := by
  induction h with
  | nil => simp
  | blank _ ih => exact ih
  | word _ hplain _ ih =>
    intro t ht
    rcases List.mem_cons.mp ht with rfl | ht
    · exact hplain
    · exact ih t ht

/-- Brackets in pairs among the characters are in pairs among the words. -/
theorem Lexes.closesLast_append (h : Lexes s ts) (hpairs : bracketsPair depth s = true) {k : ℕ}
    (hk : 0 < k) (r : List Token) :
    QuantumGates.closesLast (k + depth) (ts ++ r) = QuantumGates.closesLast k r := by
  induction h generalizing depth with
  | nil =>
    obtain rfl : depth = 0 := by simpa [bracketsPair] using hpairs
    rfl
  | blank _ ih => exact ih hpairs
  | @word s rest t ts hword hplain _ ih =>
    obtain ⟨w, hw⟩ := headWord hword hplain
    rw [hw.split] at hpairs
    by_cases hopen : t = .sign .openRound
    · rw [hw.opens hopen] at hpairs
      subst hopen
      have hrest : bracketsPair (depth + 1) rest = true := hpairs
      exact ih hrest
    by_cases hclose : t = .sign .closeRound
    · rw [hw.closes hclose] at hpairs
      subst hclose
      obtain ⟨hdepth, hrest⟩ : depth ≠ 0 ∧ bracketsPair (depth - 1) rest = true := by
        simpa [bracketsPair] using hpairs
      have hstep : QuantumGates.closesLast (k + depth) (.sign .closeRound :: (ts ++ r)) =
          QuantumGates.closesLast (k + depth - 1) (ts ++ r) := if_neg (by omega)
      rw [List.cons_append, hstep, Nat.add_sub_assoc (by omega)]
      exact ih hrest
    · rw [bracketsPair_append (hw.noRound hopen hclose)] at hpairs
      rw [List.cons_append, closesLast_cons hopen hclose]
      exact ih hpairs

theorem Lexes.balanced (h : Lexes s ts) (hpairs : bracketsPair 0 s = true) : Balanced ts :=
  ⟨h.plain, fun _ r hk => h.closesLast_append hpairs hk r⟩

/-- A comma is read where one stands. -/
theorem eq_cons_of_takeToken?_comma (h : takeToken? s = some (.sign .comma, rest)) :
    s = ',' :: rest := by
  have hspelling : ∀ p ∈ signSpellings, p.2 = .comma → p.1.toList = [','] := by decide
  obtain ⟨p, hmem, hcomma, hsplit⟩ :=
    exists_spelling_of_takeSymbol? (takeSymbol?_of_takeToken? h rfl)
  rw [hsplit, hspelling p hmem hcomma]
  rfl

/-- The words of arithmetic that are no round brackets change no depth. -/
theorem depthAfterWord_of_isPlain (hplain : t.isPlain = true) (hopen : t ≠ .sign .openRound)
    (hclose : t ≠ .sign .closeRound) (depth : ℕ) : depthAfterWord depth t = depth := by
  cases t with
  | sign g =>
    cases g with
    | openRound => exact absurd rfl hopen
    | closeRound => exact absurd rfl hclose
    | openSquare | closeSquare | openCurly | closeCurly => cases hplain
    | _ => rfl
  | _ => rfl

/-- Commas in brackets among the characters are in brackets among the words. -/
theorem Lexes.depthAfterWords_comma (h : Lexes s ts) :
    ∀ {depth : ℕ} {a b : List Token}, commasInside depth s = true → ts = a ++ .sign .comma :: b →
      depthAfterWords depth a ≠ 0 := by
  induction h with
  | nil => exact fun _ hts => (nil_ne_append_cons hts).elim
  | blank _ ih => exact fun hcommas hts => ih hcommas hts
  | @word s rest t ts hword hplain _ ih =>
    intro depth a b hcommas hts
    rcases cons_eq_append_cons hts with ⟨rfl, rfl, -⟩ | ⟨p, rfl, hrest⟩
    · rw [eq_cons_of_takeToken?_comma hword] at hcommas
      have hdepth : depth ≠ 0 ∧ commasInside depth rest = true := by
        simpa [commasInside] using hcommas
      exact hdepth.1
    · have hafter : commasInside (depthAfterWord depth t) rest = true := by
        obtain ⟨w, hw⟩ := headWord hword hplain
        rw [hw.split] at hcommas
        by_cases hopen : t = .sign .openRound
        · rw [hw.opens hopen] at hcommas
          subst hopen
          exact hcommas
        by_cases hclose : t = .sign .closeRound
        · rw [hw.closes hclose] at hcommas
          subst hclose
          exact hcommas
        · rw [depthAfterWord_of_isPlain hplain hopen hclose]
          exact commasInside_append (hw.noRound hopen hclose) hcommas
      show depthAfterWords (depthAfterWord depth t) p ≠ 0
      exact ih hafter hrest

/-- A text with its brackets in pairs and its commas in them keeps together. -/
theorem Lexes.whole (h : Lexes s ts) (hpairs : bracketsPair 0 s = true)
    (hcommas : commasInside 0 s = true) : Whole ts :=
  ⟨h.balanced hpairs, fun _ _ hts ha =>
    h.depthAfterWords_comma hcommas hts (ha.depthAfterWords 0).1⟩

end

end QuantumGates
