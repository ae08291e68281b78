-- Texts that are cut at a separator. It makes no difference to a word whether the text ends after it
-- or goes on with a blank, a bracket or a comma. So the words of a text that is cut at a separator
-- are the words of its two parts, and none of them reaches over the cut; and blanks at the ends of a
-- text make no difference to its words.
import QuantumGates.Proofs.Expression.AtomicTexts

namespace QuantumGates

section

variable {s u : List Char}

/-! ## Cuts -/

/-- The words of a text that goes on with a separator are those of its two parts. -/
theorem Lexes.split {us : List Token} (h : Lexes (s ++ u) us) (hu : endsWord u = true) :
    ∃ ts vs, us = ts ++ vs ∧ Lexes s ts ∧ Lexes u vs := by
  induction hlength : s.length using Nat.strong_induction_on generalizing s us with
  | _ n ih =>
    subst hlength
    cases s with
    | nil => exact ⟨[], us, rfl, .nil, h⟩
    | cons c s =>
      by_cases hc : c = ' '
      · subst hc
        cases h with
        | blank h =>
          obtain ⟨ts, vs, rfl, hs, hvs⟩ := ih s.length (Nat.lt_succ_self _) h rfl
          exact ⟨ts, vs, rfl, .blank hs, hvs⟩
        | word hword => cases hword
      · obtain ⟨t, rest, us', hword, hplain, hrest, rfl⟩ := h.exists_word hc
        have hfound := takeToken?_append (List.cons_ne_nil c s) hu
          (takeText?_of_plain hword hplain)
        obtain ⟨⟨t', r⟩, hr, heq⟩ := Option.map_eq_some_iff.mp (hfound.symm.trans hword)
        obtain ⟨rfl, rfl⟩ := Prod.mk.inj heq
        obtain ⟨w, hw⟩ := headWord hr hplain
        have hshorter : r.length < (c :: s).length := by
          rw [hw.split, List.length_append]
          have hpos := List.length_pos_iff.mpr hw.takes
          omega
        obtain ⟨ts, vs, rfl, hts, hvs⟩ := ih r.length hshorter hrest rfl
        exact ⟨t' :: ts, vs, rfl, .word hr hplain hts, hvs⟩

/-! ## Blanks at the ends -/

theorem Lexes.of_blanks {ts : List Token} (n : ℕ) (h : Lexes (List.replicate n ' ' ++ s) ts) :
    Lexes s ts := by
  induction n with
  | zero => exact h
  | succ n ih =>
    cases h with
    | blank h => exact ih h
    | word hword => cases hword

/-- The words of a plain text are read from it, whatever blanks stand at its ends. -/
theorem Lexes.tokensWithin? {text : String} {ts : List Token} (h : Lexes text.toList ts)
    (hs : IsPlainText text.toList) : QuantumGates.tokensWithin? none text = some ts := by
  obtain ⟨m, n, hsplit⟩ := exists_blanks_trimBlank hs
  have htrim : IsPlainText (trimBlank text.toList) := by
    rw [hsplit] at hs
    exact fun c hc => hs.right c (List.mem_append_left _ hc)
  rw [hsplit] at h
  obtain ⟨us, vs, rfl, hus, hvs⟩ := h.of_blanks.split (by cases n <;> rfl)
  obtain rfl : vs = [] := by
    rw [← List.append_nil (List.replicate n ' ')] at hvs
    exact hvs.of_blanks.eq_nil
  rw [tokensWithin?_of_plain htrim, List.append_nil]
  exact hus.tokensFrom htrim (Nat.le_succ _) 0 false

end

end QuantumGates
