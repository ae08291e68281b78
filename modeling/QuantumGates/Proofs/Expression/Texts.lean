-- The words of whole texts. `Lexes` says which words of arithmetic a text has, without the depth
-- of brackets and the count of steps that the reader of texts carries along. Texts put together
-- with blanks, brackets and commas between them have the words of their parts one after another.
import QuantumGates.Proofs.Expression.Words

namespace QuantumGates

/-! ## The words of a text -/

/-- The text is made of these words of arithmetic, with blanks between them. -/
inductive Lexes : List Char → List Token → Prop
  | nil : Lexes [] []
  | blank {s : List Char} {ts : List Token} : Lexes s ts → Lexes (' ' :: s) ts
  | word {s rest : List Char} {t : Token} {ts : List Token} :
      takeToken? s = some (t, rest) → t.isPlain = true → Lexes rest ts → Lexes s (t :: ts)

section

variable {s u : List Char} {ts us : List Token}

/-- The words of two texts, the second of which begins with a separator. -/
theorem Lexes.append (h : Lexes s ts) (h' : Lexes u us) (hu : endsWord u = true) :
    Lexes (s ++ u) (ts ++ us) := by
  induction h with
  | nil => exact h'
  | blank _ ih => exact .blank ih
  | word hword hplain _ ih =>
    obtain ⟨w, hw⟩ := headWord hword hplain
    exact .word (hw.goesOn u hu) hplain ih

theorem Lexes.blanks (n : ℕ) (h : Lexes s ts) : Lexes (List.replicate n ' ' ++ s) ts := by
  induction n with
  | zero => exact h
  | succ n ih => exact .blank ih

/-! ## Characters -/

/-- A printable character of ASCII that begins no comment. -/
def isPlainChar (c : Char) : Bool := decide (32 ≤ c.toNat) && decide (c.toNat ≤ 126) && c != '#'

/-- A text of printable characters of ASCII without comments. -/
def IsPlainText (s : List Char) : Prop := ∀ c ∈ s, isPlainChar c = true

theorem isPlainText_of_all (h : s.all isPlainChar = true) : IsPlainText s := List.all_eq_true.mp h

theorem IsPlainText.tail {c : Char} (h : IsPlainText (c :: s)) : IsPlainText s :=
  fun d hd => h d (List.mem_cons_of_mem c hd)

theorem IsPlainText.append (hs : IsPlainText s) (hu : IsPlainText u) : IsPlainText (s ++ u) := by
  intro c hc
  rcases List.mem_append.mp hc with h | h
  · exact hs c h
  · exact hu c h

theorem IsPlainText.right (h : IsPlainText (s ++ u)) : IsPlainText u :=
  fun c hc => h c (List.mem_append_right s hc)

/-- Only the space is white among the plain characters. -/
theorem eq_space_of_isBlank {c : Char} (hc : isPlainChar c = true) (h : isBlank c = true) :
    c = ' ' := by
  have hcodes : ∀ n < 127, 32 ≤ n → blanks.hasCode n = true → n = 32 := by decide +kernel
  unfold isPlainChar at hc
  simp only [Bool.and_eq_true, decide_eq_true_eq] at hc
  have hcode : c.toNat = 32 := hcodes c.toNat (by omega) hc.1.1 h
  exact Char.toNat_inj.mp hcode

/-! ## Reading whole texts -/

theorem ne_of_isPlainChar {c d : Char} (hc : isPlainChar c = true) (hd : isPlainChar d = false) :
    c ≠ d := by
  rintro rfl
  rw [hc] at hd
  cases hd

/-- The depth of brackets after a word. -/
def depthAfterWord (depth : ℕ) : Token → ℕ
  | .sign g => depthAfter depth g
  | _ => depth

/-- Whether a word begins here: there is no blank, no comment and no end of a line, also not one
after a backslash. -/
def startsWord : List Char → Bool
  | [] => false
  | c :: s => !(isInlineBlank c || c == '#' || c == '\n' || (c == '\\' && s.head? == some '\n'))

theorem tokensFrom_of_word {limit : Option ℕ} {fuel depth : ℕ} {begun : Bool}
    (h : startsWord s = true) :
    tokensFrom limit (fuel + 1) depth begun s =
      match takeToken? s with
      | none => none
      | some (t, tail) =>
        if exceeds limit (depthAfterWord depth t) then none
        else (tokensFrom limit fuel (depthAfterWord depth t) true tail).map (t :: ·) := by
  cases s with
  | nil => cases h
  | cons c s =>
    simp only [startsWord, Bool.not_eq_true', Bool.or_eq_false_iff, beq_eq_false_iff_ne] at h
    obtain ⟨⟨⟨hblank, hremark⟩, hend⟩, hescape⟩ := h
    rw [tokensFrom]
    · rw [hblank, if_neg Bool.false_ne_true, if_neg hremark, if_neg hend]
      rfl
    · rintro rest rfl rfl
      cases hescape

/-- At a character of a word the word is read. -/
theorem tokensFrom_word {c : Char} (hs : IsPlainText (c :: s)) (hc : c ≠ ' ') (fuel depth : ℕ)
    (begun : Bool) :
    tokensFrom none (fuel + 1) depth begun (c :: s) =
      match takeToken? (c :: s) with
      | none => none
      | some (t, tail) =>
        (tokensFrom none fuel (depthAfterWord depth t) true tail).map (t :: ·) := by
  have hplain := hs c List.mem_cons_self
  have htab : c ≠ '\t' := ne_of_isPlainChar hplain rfl
  have hfeed : c ≠ '\x0c' := ne_of_isPlainChar hplain rfl
  have hremark : c ≠ '#' := ne_of_isPlainChar hplain rfl
  have hend : c ≠ '\n' := ne_of_isPlainChar hplain rfl
  have hescape : s.head? ≠ some '\n' := by
    intro hhead
    obtain ⟨rest, rfl⟩ := List.head?_eq_some_iff.mp hhead
    exact absurd (hs '\n' (by simp)) (by decide)
  have hstarts : startsWord (c :: s) = true := by
    simp [startsWord, isInlineBlank, hc, htab, hfeed, hremark, hend, hescape]
  exact tokensFrom_of_word hstarts

/-- What the reader of texts finds are the words of the text. -/
theorem lexes_of_tokensFrom {fuel depth : ℕ} {begun : Bool} (hs : IsPlainText s)
    (h : tokensFrom none fuel depth begun s = some ts) (hts : ∀ t ∈ ts, t.isPlain = true) :
    Lexes s ts := by
  induction fuel generalizing depth begun s ts with
  | zero =>
    rw [tokensFrom] at h
    split at h
    · rename_i hnil
      cases h
      rw [List.isEmpty_iff.mp hnil]
      exact .nil
    · cases h
  | succ fuel ih =>
    cases s with
    | nil =>
      cases h
      exact .nil
    | cons c s =>
      by_cases hc : c = ' '
      · subst hc
        exact .blank (ih hs.tail h hts)
      · rw [tokensFrom_word hs hc] at h
        split at h
        · cases h
        · rename_i t tail hword
          obtain ⟨us, hus, rfl⟩ := Option.map_eq_some_iff.mp h
          have ht := hts t List.mem_cons_self
          obtain ⟨w, hw⟩ := headWord hword ht
          have htail : IsPlainText tail := by
            rw [hw.split] at hs
            exact hs.right
          exact .word hword ht (ih htail hus fun u hu => hts u (List.mem_cons_of_mem t hu))

/-- The reader of texts finds the words of a text. -/
theorem Lexes.tokensFrom (h : Lexes s ts) (hs : IsPlainText s) {fuel : ℕ}
    (hfuel : s.length ≤ fuel) (depth : ℕ) (begun : Bool) :
    QuantumGates.tokensFrom none fuel depth begun s = some ts := by
  induction h generalizing fuel depth begun with
  | nil => cases fuel <;> rfl
  | @blank s ts _ ih =>
    rw [List.length_cons] at hfuel
    obtain ⟨fuel, rfl⟩ : ∃ n, fuel = n + 1 := ⟨fuel - 1, by omega⟩
    exact ih hs.tail (by omega) depth begun
  | @word s rest t ts hword hplain _ ih =>
    obtain ⟨w, hw⟩ := headWord hword hplain
    have hlength : rest.length < s.length := by
      rw [hw.split, List.length_append]
      have hpos := List.length_pos_iff.mpr hw.takes
      omega
    obtain ⟨fuel, rfl⟩ : ∃ n, fuel = n + 1 := ⟨fuel - 1, by omega⟩
    cases s with
    | nil => cases hword
    | cons c s =>
      have hc : c ≠ ' ' := by
        rintro rfl
        cases hword
      have hrest : IsPlainText rest := by
        rw [hw.split] at hs
        exact hs.right
      rw [tokensFrom_word hs hc, hword]
      simp only
      rw [ih hrest (by omega)]
      rfl

/-! ## Blanks at the ends -/

theorem unifyLineEnds_of_plain (hs : IsPlainText s) : unifyLineEnds s = s := by
  induction s with
  | nil => rfl
  | cons c s ih =>
    have hc : c ≠ '\r' := ne_of_isPlainChar (hs c List.mem_cons_self) rfl
    rw [unifyLineEnds, ih hs.tail]
    · rintro rest rfl
      exact absurd rfl hc
    · rintro rfl
      exact absurd rfl hc

theorem tokensWithin?_of_plain {text : String} (hs : IsPlainText (trimBlank text.toList)) :
    tokensWithin? none text =
      tokensFrom none ((trimBlank text.toList).length + 1) 0 false (trimBlank text.toList) := by
  unfold tokensWithin?
  simp only [unifyLineEnds_of_plain hs]
  refine if_neg fun h => ?_
  exact absurd (hs _ (List.contains_iff_mem.mp h)) (by decide)

theorem exists_blanks_dropWhile (hs : IsPlainText s) :
    ∃ n, s = List.replicate n ' ' ++ s.dropWhile isBlank := by
  have hblanks : s.takeWhile isBlank = List.replicate (s.takeWhile isBlank).length ' ' := by
    refine List.eq_replicate_iff.mpr ⟨rfl, fun c hc => ?_⟩
    exact eq_space_of_isBlank (hs c ((List.takeWhile_sublist isBlank).mem hc))
      (List.all_eq_true.mp (List.all_takeWhile) c hc)
  refine ⟨(s.takeWhile isBlank).length, ?_⟩
  rw [← hblanks, List.takeWhile_append_dropWhile]

/-- A plain text is what is left of it between its blanks. -/
theorem exists_blanks_trimBlank (hs : IsPlainText s) :
    ∃ m n, s = List.replicate m ' ' ++ (trimBlank s ++ List.replicate n ' ') := by
  obtain ⟨m, hm⟩ := exists_blanks_dropWhile hs
  have hdrop : IsPlainText (s.dropWhile isBlank).reverse := by
    intro c hc
    exact hs c ((List.dropWhile_sublist isBlank).mem (List.mem_reverse.mp hc))
  obtain ⟨n, hn⟩ := exists_blanks_dropWhile hdrop
  refine ⟨m, n, ?_⟩
  have hback := congrArg List.reverse hn
  rw [List.reverse_reverse, List.reverse_append, List.reverse_replicate] at hback
  unfold trimBlank
  rw [← hback]
  exact hm

/-- What is read from a plain text are its words. -/
theorem lexes_of_tokensWithin? {text : String} (hs : IsPlainText text.toList)
    (h : tokensWithin? none text = some ts) (hts : ∀ t ∈ ts, t.isPlain = true) :
    Lexes text.toList ts := by
  obtain ⟨m, n, hsplit⟩ := exists_blanks_trimBlank hs
  have htrim : IsPlainText (trimBlank text.toList) := by
    rw [hsplit] at hs
    exact fun c hc => hs.right c (List.mem_append_left _ hc)
  rw [tokensWithin?_of_plain htrim] at h
  have hend : endsWord (List.replicate n ' ') = true := by
    cases n with
    | zero => rfl
    | succ n => rfl
  have hlast : Lexes (List.replicate n ' ') [] := by
    have hblanks := Lexes.nil.blanks n
    rwa [List.append_nil] at hblanks
  have hwords := (lexes_of_tokensFrom htrim h hts).append hlast hend
  rw [List.append_nil] at hwords
  rw [hsplit]
  exact hwords.blanks m

end

end QuantumGates
