-- Reading numbers and signs from a text. It makes no difference to a number or a sign whether the
-- text ends after it or goes on with a blank, a bracket or a comma, since none of these belongs to
-- it; and no round bracket stands in what was read, unless it was a bracket.
import Mathlib.Data.Nat.Notation
import QuantumGates.Expression.Token

namespace QuantumGates

/-! ## Separators -/

/-- The characters that end every word but a quoted text. -/
def isSeparator (c : Char) : Bool := [' ', '(', ')', ','].contains c

/-- A word may end before this. -/
def endsWord : List Char → Bool
  | [] => true
  | c :: _ => isSeparator c

/-- The text has no round brackets. -/
def NoRound (s : List Char) : Prop := ∀ c ∈ s, c ≠ '(' ∧ c ≠ ')'

theorem isSeparator_cases {c : Char} (h : isSeparator c = true) :
    c = ' ' ∨ c = '(' ∨ c = ')' ∨ c = ',' := by
  simpa [isSeparator] using h

/-- What holds of no separator is told by four characters. -/
theorem eq_of_isSeparator {α : Type} {f : Char → α} {a : α}
    (h : f ' ' = a ∧ f '(' = a ∧ f ')' = a ∧ f ',' = a) {c : Char} (hc : isSeparator c = true) :
    f c = a := by
  rcases isSeparator_cases hc with rfl | rfl | rfl | rfl
  · exact h.1
  · exact h.2.1
  · exact h.2.2.1
  · exact h.2.2.2

theorem noRound_nil : NoRound [] := by simp [NoRound]

theorem noRound_cons {c : Char} {s : List Char} (hc : isSeparator c = false) (hs : NoRound s) :
    NoRound (c :: s) := by
  intro d hd
  rcases List.mem_cons.mp hd with rfl | hd
  · refine ⟨?_, ?_⟩
    · rintro rfl
      cases hc
    · rintro rfl
      cases hc
  · exact hs d hd

theorem NoRound.append {s t : List Char} (hs : NoRound s) (ht : NoRound t) : NoRound (s ++ t) := by
  intro c hc
  rcases List.mem_append.mp hc with h | h
  · exact hs c h
  · exact ht c h

section

variable {p : Char → Bool} {s u : List Char}

theorem takeWhile_of_endsWord (hp : ∀ c, isSeparator c = true → p c = false)
    (hu : endsWord u = true) : u.takeWhile p = [] := by
  cases u with
  | nil => rfl
  | cons c u => rw [List.takeWhile_cons, hp c hu, if_neg (by simp)]

theorem dropWhile_of_endsWord (hp : ∀ c, isSeparator c = true → p c = false)
    (hu : endsWord u = true) : u.dropWhile p = u := by
  cases u with
  | nil => rfl
  | cons c u => rw [List.dropWhile_cons, hp c hu, if_neg (by simp)]

theorem takeWhile_append_of_endsWord (hp : ∀ c, isSeparator c = true → p c = false)
    (hu : endsWord u = true) : (s ++ u).takeWhile p = s.takeWhile p := by
  induction s with
  | nil => exact takeWhile_of_endsWord hp hu
  | cons c s ih => rw [List.cons_append, List.takeWhile_cons, List.takeWhile_cons, ih]

theorem dropWhile_append_of_endsWord (hp : ∀ c, isSeparator c = true → p c = false)
    (hu : endsWord u = true) : (s ++ u).dropWhile p = s.dropWhile p ++ u := by
  induction s with
  | nil => exact dropWhile_of_endsWord hp hu
  | cons c s ih =>
    rw [List.cons_append, List.dropWhile_cons, List.dropWhile_cons, ih]
    cases p c with
    | false => rfl
    | true => rfl

theorem noRound_takeWhile (hp : ∀ c, isSeparator c = true → p c = false) :
    NoRound (s.takeWhile p) := by
  induction s with
  | nil => exact noRound_nil
  | cons c s ih =>
    rw [List.takeWhile_cons]
    split
    · rename_i hc
      refine noRound_cons ?_ ih
      cases hsep : isSeparator c with
      | false => rfl
      | true =>
        rw [hp c hsep] at hc
        cases hc
    · exact noRound_nil

end

/-! ## Digits -/

/-- The part `w` of a text was read and the part `rest` was left, and the same is read when the
text goes on with a separator. -/
structure Scanned {α : Type} (scan : List Char → α × List Char) (s w rest : List Char) : Prop where
  split : s = w ++ rest
  noRound : NoRound w
  goesOn : ∀ u, endsWord u = true → scan (s ++ u) = ((scan s).1, rest ++ u)

section

variable {digit : Char → Option ℕ} {s u : List Char}

theorem moreDigits_cons_some {c : Char} {d : ℕ} (h : digit c = some d) (s : List Char) :
    moreDigits digit (c :: s) = (d :: (moreDigits digit s).1, (moreDigits digit s).2) := by
  cases s with
  | nil => simp [moreDigits, h]
  | cons c' s => simp [moreDigits, h]

theorem moreDigits_cons_none {c : Char} (h : digit c = none) (hlow : c ≠ '_') (s : List Char) :
    moreDigits digit (c :: s) = ([], c :: s) := by
  cases s with
  | nil => simp [moreDigits, h]
  | cons c' s => simp [moreDigits, h, hlow]

theorem moreDigits_low_some {c : Char} {d : ℕ} (hlow : digit '_' = none) (h : digit c = some d)
    (s : List Char) :
    moreDigits digit ('_' :: c :: s) = (d :: (moreDigits digit s).1, (moreDigits digit s).2) := by
  simp [moreDigits, hlow, h]

theorem moreDigits_low_none {c : Char} (hlow : digit '_' = none) (h : digit c = none)
    (s : List Char) : moreDigits digit ('_' :: c :: s) = ([], '_' :: c :: s) := by
  simp [moreDigits, hlow, h]

theorem moreDigits_of_endsWord (hd : ∀ c, isSeparator c = true → digit c = none)
    (hu : endsWord u = true) : moreDigits digit u = ([], u) := by
  cases u with
  | nil => rfl
  | cons c u =>
    refine moreDigits_cons_none (hd c hu) ?_ u
    rintro rfl
    cases hu

theorem isSeparator_of_digit (hd : ∀ c, isSeparator c = true → digit c = none) {c : Char} {d : ℕ}
    (h : digit c = some d) : isSeparator c = false := by
  cases hsep : isSeparator c with
  | false => rfl
  | true =>
    rw [hd c hsep] at h
    cases h

theorem scanned_moreDigits (hd : ∀ c, isSeparator c = true → digit c = none) (s : List Char) :
    ∃ w, Scanned (moreDigits digit) s w (moreDigits digit s).2 := by
  fun_induction moreDigits digit s with
  | case1 => exact ⟨[], rfl, noRound_nil, fun u hu => moreDigits_of_endsWord hd hu⟩
  | case2 c d h =>
    refine ⟨[c], rfl, noRound_cons (isSeparator_of_digit hd h) noRound_nil, fun u hu => ?_⟩
    rw [List.singleton_append, moreDigits_cons_some h, moreDigits_cons_some h,
      moreDigits_of_endsWord hd hu]
    rfl
  | case3 c h =>
    refine ⟨[], rfl, noRound_nil, fun u hu => ?_⟩
    by_cases hlow : c = '_'
    · subst hlow
      cases u with
      | nil => simp [moreDigits, h]
      | cons c' u =>
        rw [List.singleton_append, moreDigits_low_none h (hd c' hu)]
        simp [moreDigits, h]
    · rw [List.singleton_append, moreDigits_cons_none h hlow, moreDigits_cons_none h hlow]
  | case4 c c' r d h ds tail heq ih =>
    obtain ⟨w, hw⟩ := ih
    rw [heq] at hw
    refine ⟨c :: w, congrArg (c :: ·) hw.split,
      noRound_cons (isSeparator_of_digit hd h) hw.noRound, fun u hu => ?_⟩
    rw [List.cons_append, moreDigits_cons_some h, hw.goesOn u hu, moreDigits_cons_some h, heq]
  | case5 c' r d h ds tail heq hlow ih =>
    obtain ⟨w, hw⟩ := ih
    rw [heq] at hw
    refine ⟨'_' :: c' :: w, congrArg ('_' :: c' :: ·) hw.split,
      noRound_cons rfl (noRound_cons (isSeparator_of_digit hd h) hw.noRound), fun u hu => ?_⟩
    rw [List.cons_append, List.cons_append, moreDigits_low_some hlow h, hw.goesOn u hu,
      moreDigits_low_some hlow h, heq]
  | case6 c' r h hlow =>
    refine ⟨[], rfl, noRound_nil, fun u hu => ?_⟩
    rw [List.cons_append, List.cons_append, moreDigits_low_none hlow h, moreDigits_low_none hlow h]
  | case7 c c' r h hlow =>
    refine ⟨[], rfl, noRound_nil, fun u hu => ?_⟩
    rw [List.cons_append, moreDigits_cons_none h hlow, moreDigits_cons_none h hlow]

/-- A run of digits is read in the same way before a separator, and takes something if it has
digits. -/
theorem scanned_takeDigits (hd : ∀ c, isSeparator c = true → digit c = none) (s : List Char) :
    ∃ w, Scanned (takeDigits digit) s w (takeDigits digit s).2 ∧
      ((takeDigits digit s).1 ≠ [] → w ≠ []) := by
  have hend : ∀ u, endsWord u = true → takeDigits digit u = ([], u) := by
    intro u hu
    cases u with
    | nil => rfl
    | cons c u => simp [takeDigits, hd c hu]
  cases s with
  | nil => exact ⟨[], ⟨rfl, noRound_nil, hend⟩, fun hne => absurd rfl hne⟩
  | cons c s =>
    cases h : digit c with
    | none =>
      refine ⟨[], ⟨?_, noRound_nil, fun u hu => ?_⟩, fun hne => absurd ?_ hne⟩
      · simp [takeDigits, h]
      · simp [takeDigits, h]
      · simp [takeDigits, h]
    | some d =>
      obtain ⟨w, hw⟩ := scanned_moreDigits hd s
      refine ⟨c :: w, ⟨?_, noRound_cons (isSeparator_of_digit hd h) hw.noRound, fun u hu => ?_⟩,
        fun _ => List.cons_ne_nil c w⟩
      · simpa [takeDigits, h] using hw.split
      · simp [takeDigits, h, hw.goesOn u hu]

/-! ## Numbers -/

theorem takeSign_cons {c : Char} (hminus : c ≠ '-') (hplus : c ≠ '+') (s : List Char) :
    takeSign (c :: s) = (false, c :: s) := by
  unfold takeSign
  split
  · rename_i heq
    exact absurd (List.cons.inj heq).1 hminus
  · rename_i heq
    exact absurd (List.cons.inj heq).1 hplus
  · rfl

theorem scanned_takeSign (s : List Char) : ∃ w, Scanned takeSign s w (takeSign s).2 := by
  cases s with
  | nil =>
    refine ⟨[], rfl, noRound_nil, fun u hu => ?_⟩
    cases u with
    | nil => rfl
    | cons c u =>
      refine takeSign_cons ?_ ?_ u
      · rintro rfl
        cases hu
      · rintro rfl
        cases hu
  | cons c s =>
    by_cases hminus : c = '-'
    · subst hminus
      exact ⟨['-'], rfl, noRound_cons rfl noRound_nil, fun u _ => rfl⟩
    by_cases hplus : c = '+'
    · subst hplus
      exact ⟨['+'], rfl, noRound_cons rfl noRound_nil, fun u _ => rfl⟩
    · rw [takeSign_cons hminus hplus]
      refine ⟨[], rfl, noRound_nil, fun u _ => ?_⟩
      rw [List.cons_append, takeSign_cons hminus hplus, takeSign_cons hminus hplus]

theorem takeExponent_of_ne {c : Char} (hc : ¬ (c = 'e' ∨ c = 'E')) (s : List Char) :
    takeExponent digit (c :: s) = (none, c :: s) := if_neg hc

theorem takeExponent_of_nil {c : Char} {tail : List Char} (hc : c = 'e' ∨ c = 'E')
    (h : takeDigits digit (takeSign s).2 = ([], tail)) :
    takeExponent digit (c :: s) = (none, c :: s) := by
  simp only [takeExponent, if_pos hc, h]

theorem takeExponent_of_cons {c : Char} {d : ℕ} {ds : List ℕ} {tail : List Char}
    (hc : c = 'e' ∨ c = 'E') (h : takeDigits digit (takeSign s).2 = (d :: ds, tail)) :
    takeExponent digit (c :: s) =
      (some (if (takeSign s).1 then -(ofDigits (d :: ds) : Int) else ofDigits (d :: ds)),
        tail) := by
  simp only [takeExponent, if_pos hc, h]

theorem scanned_takeExponent (hd : ∀ c, isSeparator c = true → digit c = none) (s : List Char) :
    ∃ w, Scanned (takeExponent digit) s w (takeExponent digit s).2 := by
  cases s with
  | nil =>
    refine ⟨[], rfl, noRound_nil, fun u hu => ?_⟩
    cases u with
    | nil => rfl
    | cons c u =>
      refine takeExponent_of_ne ?_ u
      rintro (rfl | rfl)
      · cases hu
      · cases hu
  | cons c s =>
    by_cases hc : c = 'e' ∨ c = 'E'
    · obtain ⟨w, hw⟩ := scanned_takeSign s
      obtain ⟨v, hv, -⟩ := scanned_takeDigits hd (takeSign s).2
      have hgoes : ∀ u, endsWord u = true → takeDigits digit (takeSign (s ++ u)).2 =
          ((takeDigits digit (takeSign s).2).1, (takeDigits digit (takeSign s).2).2 ++ u) := by
        intro u hu
        rw [hw.goesOn u hu]
        exact hv.goesOn u hu
      have hsep : isSeparator c = false := by
        rcases hc with rfl | rfl
        · rfl
        · rfl
      rcases hds : takeDigits digit (takeSign s).2 with ⟨_ | ⟨d, ds⟩, tail⟩
      · rw [takeExponent_of_nil hc hds]
        refine ⟨[], rfl, noRound_nil, fun u hu => ?_⟩
        have hu' := hgoes u hu
        rw [hds] at hu'
        rw [List.cons_append, takeExponent_of_nil hc hu', takeExponent_of_nil hc hds]
      · rw [hds] at hv
        rw [takeExponent_of_cons hc hds]
        refine ⟨c :: (w ++ v), ?_, noRound_cons hsep (hw.noRound.append hv.noRound),
          fun u hu => ?_⟩
        · rw [List.cons_append, List.append_assoc, ← hv.split, ← hw.split]
        · have hu' := hgoes u hu
          rw [hds] at hu'
          rw [List.cons_append, takeExponent_of_cons hc hu', takeExponent_of_cons hc hds,
            hw.goesOn u hu]
    · rw [takeExponent_of_ne hc]
      refine ⟨[], rfl, noRound_nil, fun u _ => ?_⟩
      rw [List.cons_append, takeExponent_of_ne hc, takeExponent_of_ne hc]

/-- The digits after a point, and whether there is a point. -/
def takeFraction (digit : Char → Option ℕ) : List Char → (List ℕ × Bool) × List Char
  | '.' :: s => (((takeDigits digit s).1, true), (takeDigits digit s).2)
  | s => (([], false), s)

theorem takeFraction_of_ne {c : Char} (hc : c ≠ '.') (s : List Char) :
    takeFraction digit (c :: s) = (([], false), c :: s) := by
  unfold takeFraction
  split
  · rename_i heq
    exact absurd (List.cons.inj heq).1 hc
  · rfl

theorem scanned_takeFraction (hd : ∀ c, isSeparator c = true → digit c = none) (s : List Char) :
    ∃ w, Scanned (takeFraction digit) s w (takeFraction digit s).2 ∧
      ((takeFraction digit s).1.1 ≠ [] → w ≠ []) := by
  cases s with
  | nil =>
    refine ⟨[], ⟨rfl, noRound_nil, fun u hu => ?_⟩, fun hne => absurd rfl hne⟩
    cases u with
    | nil => rfl
    | cons c u =>
      refine takeFraction_of_ne ?_ u
      rintro rfl
      cases hu
  | cons c s =>
    by_cases hc : c = '.'
    · subst hc
      obtain ⟨w, hw, -⟩ := scanned_takeDigits hd s
      refine ⟨'.' :: w, ⟨congrArg ('.' :: ·) hw.split, noRound_cons rfl hw.noRound, fun u hu => ?_⟩,
        fun _ => List.cons_ne_nil _ _⟩
      rw [List.cons_append, takeFraction, hw.goesOn u hu]
      rfl
    · rw [takeFraction_of_ne hc]
      refine ⟨[], ⟨rfl, noRound_nil, fun u _ => ?_⟩, fun hne => absurd rfl hne⟩
      rw [List.cons_append, takeFraction_of_ne hc, takeFraction_of_ne hc]

/-- A number is its whole digits, its fraction and its power of ten, one after another. -/
theorem takeNumber?_eq (s : List Char) :
    takeNumber? digit s =
      (let whole := takeDigits digit s
       let fraction := takeFraction digit whole.2
       let power := takeExponent digit fraction.2
       if whole.1.isEmpty && fraction.1.1.isEmpty then none
       else some (⟨ofDigits (whole.1 ++ fraction.1.1), power.1.getD 0 - fraction.1.1.length⟩,
        !fraction.1.2 && power.1.isNone, power.2)) := by
  unfold takeNumber?
  rcases takeDigits digit s with ⟨whole, rest⟩
  cases rest with
  | nil => rfl
  | cons c rest =>
    by_cases hc : c = '.'
    · subst hc
      rfl
    · simp only [takeFraction_of_ne hc]
      split
      · rename_i heq
        exact absurd (List.cons.inj heq).1 hc
      · rfl

theorem takeNumber?_append (hd : ∀ c, isSeparator c = true → digit c = none)
    (hu : endsWord u = true) :
    takeNumber? digit (s ++ u) =
      (takeNumber? digit s).map fun x => (x.1, x.2.1, x.2.2 ++ u) := by
  obtain ⟨_, hwhole, -⟩ := scanned_takeDigits hd s
  obtain ⟨_, hfraction, -⟩ := scanned_takeFraction hd (takeDigits digit s).2
  obtain ⟨_, hpower⟩ := scanned_takeExponent hd (takeFraction digit (takeDigits digit s).2).2
  rw [takeNumber?_eq, takeNumber?_eq]
  simp only [hwhole.goesOn u hu, hfraction.goesOn u hu, hpower.goesOn u hu]
  split
  · rfl
  · rfl

theorem takeNumber?_taken (hd : ∀ c, isSeparator c = true → digit c = none) {d : Decimal}
    {isWhole : Bool} {rest : List Char} (h : takeNumber? digit s = some (d, isWhole, rest)) :
    ∃ w, s = w ++ rest ∧ w ≠ [] ∧ NoRound w := by
  rw [takeNumber?_eq] at h
  obtain ⟨w₁, hw₁, hne₁⟩ := scanned_takeDigits hd s
  obtain ⟨w₂, hw₂, hne₂⟩ := scanned_takeFraction hd (takeDigits digit s).2
  obtain ⟨w₃, hw₃⟩ := scanned_takeExponent hd (takeFraction digit (takeDigits digit s).2).2
  simp only at h
  split at h
  · cases h
  · rename_i hne
    cases h
    refine ⟨w₁ ++ (w₂ ++ w₃), ?_, ?_, hw₁.noRound.append (hw₂.noRound.append hw₃.noRound)⟩
    · rw [List.append_assoc, List.append_assoc, ← hw₃.split, ← hw₂.split, ← hw₁.split]
    · intro hnil
      obtain ⟨hnil₁, hnil⟩ := List.append_eq_nil_iff.mp hnil
      obtain ⟨hnil₂, -⟩ := List.append_eq_nil_iff.mp hnil
      apply hne
      rw [Bool.and_eq_true, List.isEmpty_iff, List.isEmpty_iff]
      exact ⟨Decidable.not_not.mp fun h => hne₁ h hnil₁, Decidable.not_not.mp fun h => hne₂ h hnil₂⟩

end

/-! ## Words of numbers -/

/-- The words that are numbers. -/
def Token.isNumber : Token → Bool
  | .whole _ | .decimal _ => true
  | _ => false

/-- The word of a number was read from a text with the spelling `w`, and the rest was left. -/
structure NumberRead (s : List Char) (t : Token) (w rest : List Char) : Prop where
  number : t.isNumber = true
  split : s = w ++ rest
  takes : w ≠ []
  noRound : NoRound w

/-- What was read from a text, when the text goes on with `u`. -/
def goingOn {α : Type} (u : List Char) (found : Option (α × List Char)) :
    Option (α × List Char) := found.map fun x => (x.1, x.2 ++ u)

theorem asciiDigit?_of_isSeparator (c : Char) (h : isSeparator c = true) : asciiDigit? c = none :=
  eq_of_isSeparator ⟨rfl, rfl, rfl, rfl⟩ h

theorem baseDigit?_of_isSeparator (base : ℕ) (c : Char) (h : isSeparator c = true) :
    baseDigit? base c = none := by
  have hno : (if base < base then some base else none) = none := if_neg (Nat.lt_irrefl base)
  exact eq_of_isSeparator (f := baseDigit? base) ⟨hno, hno, hno, hno⟩ h

theorem afterStart?_append {a s r : List Char} (h : afterStart? a s = some r) (u : List Char) :
    afterStart? a (s ++ u) = some (r ++ u) := by
  induction a generalizing s with
  | nil =>
    cases h
    rfl
  | cons c a ih =>
    cases s with
    | nil => cases h
    | cons c' s =>
      rw [List.cons_append]
      unfold afterStart? at h ⊢
      split at h
      · rename_i hc
        rw [if_pos hc]
        exact ih h
      · cases h

section

variable {s u rest : List Char} {t : Token}

/-- A spelling that does not begin a text does not begin it either when the text goes on with a
character that is not in the spelling. -/
theorem afterStart?_append_eq_none {a : List Char} (h : afterStart? a s = none)
    (hu : ∀ c r, u = c :: r → c ∉ a) : afterStart? a (s ++ u) = none := by
  induction a generalizing s with
  | nil => cases h
  | cons b a ih =>
    cases s with
    | nil =>
      cases u with
      | nil => rfl
      | cons c u =>
        refine if_neg fun hb => hu c u rfl ?_
        rw [hb]
        exact List.mem_cons_self
    | cons c s =>
      rw [List.cons_append]
      unfold afterStart? at h ⊢
      split
      · rename_i hb
        rw [if_pos hb] at h
        exact ih h fun d r heq hd => hu d r heq (List.mem_cons_of_mem b hd)
      · rfl

theorem afterStart?_isSome_append {a : List Char} (ha : ∀ c ∈ a, isSeparator c = false)
    (hu : endsWord u = true) :
    (afterStart? a (s ++ u)).isSome = (afterStart? a s).isSome := by
  cases hstart : afterStart? a s with
  | some r =>
    rw [afterStart?_append hstart u]
    rfl
  | none =>
    have hnone : afterStart? a (s ++ u) = none := by
      refine afterStart?_append_eq_none hstart fun c r hcons hc => ?_
      rw [hcons, endsWord, ha c hc] at hu
      cases hu
    rw [hnone]

theorem numberMayEnd_of_endsWord (hu : endsWord u = true) : numberMayEnd u = true := by
  cases u with
  | nil => rfl
  | cons c u =>
    unfold numberMayEnd
    simp only [Bool.or_eq_true]
    right
    exact eq_of_isSeparator
      (f := fun c => !(isAsciiLetter c || isAsciiDigit c || c == '_' || decide (128 ≤ c.toNat)))
      ⟨rfl, rfl, rfl, rfl⟩ hu

theorem numberMayEnd_append (hu : endsWord u = true) :
    numberMayEnd (s ++ u) = numberMayEnd s := by
  have hall : (wordsAfterNumber.all fun w => w.toList.all fun c => !isSeparator c) = true := by
    decide
  have hletters : ∀ w ∈ wordsAfterNumber, ∀ c ∈ w.toList, isSeparator c = false := by
    intro w hw c hc
    simpa using List.all_eq_true.mp (List.all_eq_true.mp hall w hw) c hc
  cases s with
  | nil => exact numberMayEnd_of_endsWord hu
  | cons c s =>
    have hany : (wordsAfterNumber.any fun w => (afterStart? w.toList (c :: s ++ u)).isSome) =
        wordsAfterNumber.any fun w => (afterStart? w.toList (c :: s)).isSome := by
      rw [Bool.eq_iff_iff, List.any_eq_true, List.any_eq_true]
      refine exists_congr fun w => and_congr_right fun hw => ?_
      rw [afterStart?_isSome_append (hletters w hw) hu]
    exact congrArg (· || _) hany

/-- The word of a decimal number. A whole one of several digits does not start with a nought. -/
def decimalToken? (first : Option Char) (d : Decimal) (isWhole : Bool) : Option Token :=
  if isWhole then
    if first = some '0' ∧ d.digits ≠ 0 then none
    else if Nat.pow 10 longestWhole ≤ d.digits then none
    else some (.whole d.digits)
  else some (.decimal d)

theorem isNumber_of_decimalToken? {first : Option Char} {d : Decimal} {isWhole : Bool}
    (h : decimalToken? first d isWhole = some t) : t.isNumber = true := by
  unfold decimalToken? at h
  split at h
  · split at h
    · cases h
    · split at h
      · cases h
      · cases h
        rfl
  · cases h
    rfl

/-- A decimal number before anything but the letter of imaginary numbers. -/
theorem takeDecimal?_of_number {d : Decimal} {isWhole : Bool}
    (h : takeNumber? asciiDigit? s = some (d, isWhole, rest))
    (hj : ∀ tail, rest ≠ 'j' :: tail) (hJ : ∀ tail, rest ≠ 'J' :: tail) :
    takeDecimal? s = if numberMayEnd rest then
      (decimalToken? s.head? d isWhole).map fun t => (t, rest) else none := by
  have htake : takeDecimal? s =
      if !numberMayEnd rest then none
      else if isWhole then
        if s.head? = some '0' ∧ d.digits ≠ 0 then none
        else if Nat.pow 10 longestWhole ≤ d.digits then none
        else some (.whole d.digits, rest)
      else some (.decimal d, rest) := by
    unfold takeDecimal?
    simp only [h]
  rw [htake]
  unfold decimalToken?
  cases numberMayEnd rest with
  | false => rfl
  | true =>
    cases isWhole with
    | false => rfl
    | true =>
      by_cases hzero : s.head? = some '0' ∧ d.digits ≠ 0
      · simp only [if_pos hzero]
        rfl
      · simp only [if_neg hzero]
        by_cases hlong : Nat.pow 10 longestWhole ≤ d.digits
        · simp only [if_pos hlong]
          rfl
        · simp only [if_neg hlong]
          rfl

/-- A decimal number was read, no letter of imaginary numbers follows it, and it has its word. -/
theorem takeDecimal?_eq_some (h : takeDecimal? s = some (t, rest)) (ht : t ≠ .imaginary) :
    ∃ d isWhole, takeNumber? asciiDigit? s = some (d, isWhole, rest) ∧
      (∀ tail, rest ≠ 'j' :: tail) ∧ (∀ tail, rest ≠ 'J' :: tail) ∧ numberMayEnd rest = true ∧
      decimalToken? s.head? d isWhole = some t := by
  cases hnumber : takeNumber? asciiDigit? s with
  | none =>
    unfold takeDecimal? at h
    rw [hnumber] at h
    cases h
  | some found =>
    obtain ⟨d, isWhole, r⟩ := found
    have hletter : ∀ c tail, c = 'j' ∨ c = 'J' → r ≠ c :: tail := by
      rintro c tail hc rfl
      unfold takeDecimal? at h
      rw [hnumber] at h
      rcases hc with rfl | rfl
      all_goals
        simp only at h
        split at h
        · cases h
          exact ht rfl
        · cases h
    have hj := fun tail => hletter 'j' tail (.inl rfl)
    have hJ := fun tail => hletter 'J' tail (.inr rfl)
    rw [takeDecimal?_of_number hnumber hj hJ] at h
    split at h
    · rename_i hends
      obtain ⟨t', htoken, heq⟩ := Option.map_eq_some_iff.mp h
      cases heq
      exact ⟨d, isWhole, rfl, hj, hJ, hends, htoken⟩
    · cases h

theorem append_ne_cons {c : Char} (hc : isSeparator c = false)
    (hu : endsWord u = true) (h : ∀ tail, s ≠ c :: tail) : ∀ tail, s ++ u ≠ c :: tail := by
  intro tail heq
  cases s with
  | nil =>
    rw [List.nil_append] at heq
    subst heq
    rw [endsWord, hc] at hu
    cases hu
  | cons c' s =>
    obtain ⟨rfl, -⟩ := List.cons.inj heq
    exact h s rfl

theorem takeDecimal?_read (h : takeDecimal? s = some (t, rest)) (ht : t ≠ .imaginary) :
    ∃ w, NumberRead s t w rest := by
  obtain ⟨d, isWhole, hnumber, -, -, -, htoken⟩ := takeDecimal?_eq_some h ht
  obtain ⟨w, hsplit, hne, hround⟩ := takeNumber?_taken asciiDigit?_of_isSeparator hnumber
  exact ⟨w, isNumber_of_decimalToken? htoken, hsplit, hne, hround⟩

theorem takeDecimal?_append (hu : endsWord u = true) :
    takeDecimal? (s ++ u) = goingOn u (takeDecimal? s) := by
  have hnumber := takeNumber?_append (s := s) asciiDigit?_of_isSeparator hu
  cases hs : takeNumber? asciiDigit? s with
  | none =>
    rw [hs] at hnumber
    unfold takeDecimal?
    rw [hs, hnumber]
    rfl
  | some found =>
    obtain ⟨d, isWhole, rest⟩ := found
    rw [hs] at hnumber
    by_cases hletter : ∃ tail, rest = 'j' :: tail ∨ rest = 'J' :: tail
    · obtain ⟨tail, rfl | rfl⟩ := hletter
      all_goals
        unfold takeDecimal?
        simp only [hs, hnumber, Option.map_some, List.cons_append, numberMayEnd_append hu]
        split
        · rfl
        · rfl
    · have hj : ∀ tail, rest ≠ 'j' :: tail := fun tail h => hletter ⟨tail, .inl h⟩
      have hJ : ∀ tail, rest ≠ 'J' :: tail := fun tail h => hletter ⟨tail, .inr h⟩
      obtain ⟨w, hsplit, hne, -⟩ := takeNumber?_taken asciiDigit?_of_isSeparator hs
      have hhead : (s ++ u).head? = s.head? := by
        rw [hsplit, List.append_assoc]
        cases w with
        | nil => exact absurd rfl hne
        | cons c w => rfl
      rw [takeDecimal?_of_number hs hj hJ, takeDecimal?_of_number hnumber
        (append_ne_cons rfl hu hj) (append_ne_cons rfl hu hJ), hhead, numberMayEnd_append hu]
      split
      · cases decimalToken? s.head? d isWhole <;> rfl
      · rfl

/-- The digits of a whole number in another base than ten. -/
def takeBasedDigits? (base : ℕ) (s : List Char) : Option (Token × List Char) :=
  match takeDigits (baseDigit? base) s with
  | ([], _) => none
  | (ds, rest) =>
    if numberMayEnd rest then some (.whole (ds.foldl (fun n d => base * n + d) 0), rest) else none

theorem takeBased?_of_ne (base : ℕ) {s : List Char} (h : ∀ r, s ≠ '_' :: r) :
    takeBased? base s = takeBasedDigits? base s := by
  unfold takeBased?
  split
  · exact absurd rfl (h _)
  · rfl

theorem takeBasedDigits?_read {base : ℕ} (h : takeBasedDigits? base s = some (t, rest)) :
    ∃ w, NumberRead s t w rest := by
  obtain ⟨w, hw, hne⟩ := scanned_takeDigits (baseDigit?_of_isSeparator base) s
  unfold takeBasedDigits? at h
  rcases hds : takeDigits (baseDigit? base) s with ⟨_ | ⟨d, ds⟩, r⟩
  · rw [hds] at h
    cases h
  · rw [hds] at h hw hne
    simp only at h
    split at h
    · cases h
      exact ⟨w, rfl, hw.split, hne (List.cons_ne_nil d ds), hw.noRound⟩
    · cases h

theorem takeBasedDigits?_append (base : ℕ) (hu : endsWord u = true) :
    takeBasedDigits? base (s ++ u) = goingOn u (takeBasedDigits? base s) := by
  obtain ⟨_, hdigits, -⟩ := scanned_takeDigits (baseDigit?_of_isSeparator base) s
  unfold takeBasedDigits?
  rw [hdigits.goesOn u hu]
  rcases takeDigits (baseDigit? base) s with ⟨_ | ⟨d, ds⟩, rest⟩
  · rfl
  · simp only [numberMayEnd_append hu]
    split
    · rfl
    · rfl

theorem takeBased?_read {base : ℕ} (h : takeBased? base s = some (t, rest)) :
    ∃ w, NumberRead s t w rest := by
  by_cases hlow : ∃ r, s = '_' :: r
  · obtain ⟨r, rfl⟩ := hlow
    obtain ⟨w, hw⟩ := takeBasedDigits?_read h
    exact ⟨'_' :: w, hw.number, congrArg ('_' :: ·) hw.split, List.cons_ne_nil _ _,
      noRound_cons rfl hw.noRound⟩
  · rw [takeBased?_of_ne base fun r heq => hlow ⟨r, heq⟩] at h
    exact takeBasedDigits?_read h

theorem takeBased?_append (base : ℕ) (hu : endsWord u = true) :
    takeBased? base (s ++ u) = goingOn u (takeBased? base s) := by
  by_cases hlow : ∃ r, s = '_' :: r
  · obtain ⟨r, rfl⟩ := hlow
    exact takeBasedDigits?_append base hu
  · have hno : ∀ r, s ≠ '_' :: r := fun r heq => hlow ⟨r, heq⟩
    rw [takeBased?_of_ne base hno, takeBased?_of_ne base (append_ne_cons rfl hu hno),
      takeBasedDigits?_append base hu]

theorem takeNumberToken?_of_base {c : Char} {base : ℕ} (hc : baseOf? c = some base)
    (s : List Char) : takeNumberToken? ('0' :: c :: s) = takeBased? base s := by
  unfold takeNumberToken?
  simp only [hc]

theorem takeNumberToken?_of_decimal (h : ∀ c r, s = '0' :: c :: r → baseOf? c = none) :
    takeNumberToken? s = takeDecimal? s := by
  unfold takeNumberToken?
  split
  · rename_i c r
    rw [h c r rfl]
  · rfl

/-- A number is written in another base than ten, or none of its letters is that of a base. -/
theorem based_or_decimal (s : List Char) :
    (∃ c r base, s = '0' :: c :: r ∧ baseOf? c = some base) ∨
      ∀ c r, s = '0' :: c :: r → baseOf? c = none := by
  by_cases h : ∃ c r base, s = '0' :: c :: r ∧ baseOf? c = some base
  · exact .inl h
  · exact .inr fun c r heq =>
      Option.eq_none_iff_forall_ne_some.mpr fun base hc => h ⟨c, r, base, heq, hc⟩

theorem takeNumberToken?_read (h : takeNumberToken? s = some (t, rest)) (ht : t ≠ .imaginary) :
    ∃ w, NumberRead s t w rest := by
  obtain ⟨c, r, base, rfl, hc⟩ | hdecimal := based_or_decimal s
  · rw [takeNumberToken?_of_base hc] at h
    obtain ⟨w, hw⟩ := takeBased?_read h
    have hsep : isSeparator c = false := by
      cases hsep : isSeparator c with
      | false => rfl
      | true =>
        have hnone : baseOf? c = none :=
          eq_of_isSeparator (f := baseOf?) ⟨rfl, rfl, rfl, rfl⟩ hsep
        rw [hnone] at hc
        cases hc
    exact ⟨'0' :: c :: w, hw.number, congrArg ('0' :: c :: ·) hw.split, List.cons_ne_nil _ _,
      noRound_cons rfl (noRound_cons hsep hw.noRound)⟩
  · rw [takeNumberToken?_of_decimal hdecimal] at h
    exact takeDecimal?_read h ht

theorem takeNumberToken?_append (hs : s ≠ []) (hu : endsWord u = true) :
    takeNumberToken? (s ++ u) = goingOn u (takeNumberToken? s) := by
  obtain ⟨c, r, base, rfl, hc⟩ | hdecimal := based_or_decimal s
  · rw [takeNumberToken?_of_base hc, List.cons_append, List.cons_append,
      takeNumberToken?_of_base hc]
    exact takeBased?_append base hu
  · rw [takeNumberToken?_of_decimal hdecimal, takeNumberToken?_of_decimal]
    · exact takeDecimal?_append hu
    · -- a lone nought has no letter of a base after it, whatever separator follows
      intro c r heq
      match s, hs, heq with
      | [a], _, heq =>
        obtain ⟨rfl, rfl⟩ := List.cons.inj heq
        exact eq_of_isSeparator (f := baseOf?) ⟨rfl, rfl, rfl, rfl⟩ hu
      | a :: b :: s, _, heq =>
        obtain ⟨rfl, htail⟩ := List.cons.inj heq
        obtain ⟨rfl, -⟩ := List.cons.inj htail
        exact hdecimal b s rfl

end

/-! ## Signs -/

section

variable {s u rest : List Char}

theorem eq_append_of_afterStart? {a r : List Char} (h : afterStart? a s = some r) :
    s = a ++ r := by
  induction a generalizing s with
  | nil =>
    cases h
    rfl
  | cons b a ih =>
    cases s with
    | nil => cases h
    | cons c s =>
      unfold afterStart? at h
      split at h
      · rename_i hb
        rw [hb, List.cons_append, ← ih h]
      · cases h

/-- The spellings begin with something that no separator follows, and only the round brackets
have a round bracket in their spelling. -/
theorem spellings_separate :
    ∀ p ∈ signSpellings, p.1.toList ≠ [] ∧ (∀ c ∈ p.1.toList.tail, isSeparator c = false) ∧
      (p.2 = .openRound → p.1.toList = ['(']) ∧ (p.2 = .closeRound → p.1.toList = [')']) ∧
      (p.2 ≠ .openRound → p.2 ≠ .closeRound → NoRound p.1.toList) := by
  have hall : ∀ p ∈ signSpellings, p.1.toList ≠ [] ∧
      p.1.toList.tail.all (fun c => !isSeparator c) = true ∧
      (p.2 = .openRound → p.1.toList = ['(']) ∧ (p.2 = .closeRound → p.1.toList = [')']) ∧
      (p.2 ≠ .openRound → p.2 ≠ .closeRound →
        p.1.toList.all (fun c => c != '(' && c != ')') = true) := by decide +kernel
  intro p hp
  obtain ⟨hne, htail, hopen, hclose, hround⟩ := hall p hp
  refine ⟨hne, fun c hc => ?_, hopen, hclose, fun h h' c hc => ?_⟩
  · simpa using List.all_eq_true.mp htail c hc
  · simpa using List.all_eq_true.mp (hround h h') c hc

/-- A sign that was read stands at the head of the text in one of its spellings. -/
theorem exists_spelling_of_takeSymbol? {g : Sign} (h : takeSymbol? s = some (g, rest)) :
    ∃ p ∈ signSpellings, p.2 = g ∧ s = p.1.toList ++ rest := by
  obtain ⟨p, hmem, hp⟩ := List.exists_of_findSome?_eq_some h
  obtain ⟨r, hstart, heq⟩ := Option.map_eq_some_iff.mp hp
  cases heq
  exact ⟨p, hmem, rfl, eq_append_of_afterStart? hstart⟩

/-- The spelling begins with the character that the text begins with. -/
theorem exists_head_of_takeSymbol? {c : Char} {g : Sign}
    (h : takeSymbol? (c :: s) = some (g, rest)) :
    ∃ p ∈ signSpellings, p.2 = g ∧ p.1.toList.head? = some c := by
  obtain ⟨p, hmem, hsign, hsplit⟩ := exists_spelling_of_takeSymbol? h
  refine ⟨p, hmem, hsign, ?_⟩
  cases hspelling : p.1.toList with
  | nil => exact absurd hspelling (spellings_separate p hmem).1
  | cons d w =>
    rw [hspelling] at hsplit
    exact congrArg some (List.cons.inj hsplit).1.symm

/-- A sign was read from a text by its spelling. -/
theorem takeSymbol?_read {g : Sign} (h : takeSymbol? s = some (g, rest)) :
    ∃ w, s = w ++ rest ∧ w ≠ [] ∧ (g = .openRound → w = ['(']) ∧ (g = .closeRound → w = [')']) ∧
      (g ≠ .openRound → g ≠ .closeRound → NoRound w) := by
  obtain ⟨p, hmem, rfl, hsplit⟩ := exists_spelling_of_takeSymbol? h
  obtain ⟨hne, -, hopen, hclose, hround⟩ := spellings_separate p hmem
  exact ⟨p.1.toList, hsplit, hne, hopen, hclose, hround⟩

theorem afterStart?_append_eq {a : List Char} (ha : ∀ c ∈ a.tail, isSeparator c = false)
    (hs : s ≠ []) (hu : endsWord u = true) :
    afterStart? a (s ++ u) = (afterStart? a s).map (· ++ u) := by
  cases hstart : afterStart? a s with
  | some r => exact afterStart?_append hstart u
  | none =>
    cases s with
    | nil => exact absurd rfl hs
    | cons c s =>
      cases a with
      | nil => cases hstart
      | cons b a =>
        rw [List.cons_append]
        unfold afterStart? at hstart ⊢
        split
        · rename_i hb
          rw [if_pos hb] at hstart
          refine afterStart?_append_eq_none hstart fun d r hcons hd => ?_
          rw [hcons, endsWord, ha d hd] at hu
          cases hu
        · rfl

theorem takeSymbol?_append (hs : s ≠ []) (hu : endsWord u = true) :
    takeSymbol? (s ++ u) = goingOn u (takeSymbol? s) := by
  have hspelling : ∀ p ∈ signSpellings,
      ((afterStart? p.1.toList (s ++ u)).map fun rest => (p.2, rest)) =
        goingOn u ((afterStart? p.1.toList s).map fun rest => (p.2, rest)) := by
    intro p hp
    rw [afterStart?_append_eq (spellings_separate p hp).2.1 hs hu]
    cases afterStart? p.1.toList s <;> rfl
  have hall := congrArg (List.findSome? id) (List.map_congr_left hspelling)
  rw [List.findSome?_map, List.findSome?_map] at hall
  exact hall.trans List.map_findSome?.symm

end

end QuantumGates
