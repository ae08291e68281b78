-- Reading on. What was read as arithmetic from the beginning of a list of words is read in the
-- same way when the list goes on after it with a sign that cannot belong to it, and when the rules
-- may be nested deeper. The proof is one induction on the depth, with a step for each goal.
import QuantumGates.Proofs.Expression.Lookahead

namespace QuantumGates

open Node

/-! ## Reading on -/

/-- A goal used some words for a tree, and it does so whatever comes after the rest. -/
structure ReadOn (n : ℕ) (g : Goal) (x : Node) (used rest : List Token) : Prop where
  balanced : Balanced used
  takes : g.takesWord = true → used ≠ []
  goesOn : ∀ m suffix, n ≤ m → beginsWithSign suffix = true →
    (rest = [] → g.endsBefore suffix = true) →
    read m g (used ++ rest ++ suffix) = some (x, rest ++ suffix)

/-- Every plain tree that is read within a depth is read on. -/
def ReadsOn (n : ℕ) : Prop :=
  ∀ g ts x rest, g.ofArithmetic = true → read n g ts = some (x, rest) → x.Plain →
    ∃ used, ts = used ++ rest ∧ ReadOn n g x used rest

section

variable {n : ℕ} {ts rest : List Token} {x : Node}

/-- A goal that is read one level deeper. -/
theorem ReadOn.succ {g : Goal} {used : List Token} (hbalanced : Balanced used)
    (htakes : g.takesWord = true → used ≠ [])
    (hgoesOn : ∀ m suffix, n ≤ m → beginsWithSign suffix = true →
      (rest = [] → g.endsBefore suffix = true) →
      read (m + 1) g (used ++ rest ++ suffix) = some (x, rest ++ suffix)) :
    ReadOn (n + 1) g x used rest := by
  refine ⟨hbalanced, htakes, fun m suffix hm hs hend => ?_⟩
  cases m with
  | zero => omega
  | succ m => exact hgoesOn m suffix (by omega) hs hend

theorem readsOn_named (ih : ReadsOn n) (h : read (n + 1) .named ts = some (x, rest))
    (hx : x.Plain) : ∃ used, ts = used ++ rest ∧ ReadOn (n + 1) .named x used rest := by
  obtain ⟨hdef, h⟩ := read_named h hx
  obtain ⟨used, rfl, hu⟩ := ih _ _ _ _ rfl h hx
  refine ⟨used, rfl, .succ hu.balanced (fun _ => hu.takes rfl) fun m suffix hm hs hend => ?_⟩
  refine read_named_of (startsDefinition_append hdef fun hlen => hend ?_)
    (hu.goesOn m suffix hm hs hend)
  have hpos := List.length_pos_iff.mpr (hu.takes rfl)
  rw [List.length_append] at hlen
  exact List.length_eq_zero_iff.mp (by omega)

theorem readsOn_item (ih : ReadsOn n) (h : read (n + 1) .item ts = some (x, rest))
    (hx : x.Plain) : ∃ used, ts = used ++ rest ∧ ReadOn (n + 1) .item x used rest := by
  obtain ⟨hstar, h⟩ := read_item h hx
  obtain ⟨used, rfl, hu⟩ := ih _ _ _ _ rfl h hx
  refine ⟨used, rfl, .succ hu.balanced (fun _ => hu.takes rfl) fun m suffix hm hs hend => ?_⟩
  refine read_item_of (afterSign?_append hstar fun hnil => ?_)
    (hu.goesOn m suffix hm hs hend)
  exact absurd (List.append_eq_nil_iff.mp hnil).1 (hu.takes rfl)

theorem readsOn_expression (ih : ReadsOn n) (h : read (n + 1) .expression ts = some (x, rest))
    (hx : x.Plain) : ∃ used, ts = used ++ rest ∧ ReadOn (n + 1) .expression x used rest := by
  obtain ⟨hlambda, h, hif⟩ := read_expression h hx
  obtain ⟨used, rfl, hu⟩ := ih _ _ _ _ rfl h hx
  refine ⟨used, rfl, .succ hu.balanced (fun _ => hu.takes rfl) fun m suffix hm hs hend => ?_⟩
  exact read_expression_of (afterWord?_append hlambda hs)
    (hu.goesOn m suffix hm hs hend) (afterWord?_append hif hs)

/-- The operands of a chain, and the chain that they begin. -/
theorem ReadOn.chain {k : ℕ} {left : Node} {used more : List Token} (h2 : k ≠ 2) (h10 : k ≠ 10)
    (hleft : ReadOn n (.chain (k + 1)) left used (more ++ rest))
    (h : ReadOn n (.chainFrom k left) x more rest) :
    ReadOn (n + 1) (.chain k) x (used ++ more) rest := by
  refine .succ (hleft.balanced.append h.balanced) (fun _ hnil => hleft.takes rfl ?_) ?_
  · exact (List.append_eq_nil_iff.mp hnil).1
  · intro m suffix hm hs hend
    have hfirst := hleft.goesOn m suffix hm hs fun hnil =>
      hend (List.append_eq_nil_iff.mp hnil).2
    rw [← List.append_assoc] at hfirst
    exact read_chain_of h2 h10 hfirst (h.goesOn m suffix hm hs hend)

theorem readsOn_chain (ih : ReadsOn n) {k : ℕ} (h : read (n + 1) (.chain k) ts = some (x, rest))
    (hx : x.Plain) : ∃ used, ts = used ++ rest ∧ ReadOn (n + 1) (.chain k) x used rest := by
  by_cases h2 : k = 2
  · subst h2
    obtain ⟨hnot, h⟩ := read_chain_two h hx
    obtain ⟨used, rfl, hu⟩ := ih _ _ _ _ rfl h hx
    refine ⟨used, rfl, .succ hu.balanced (fun _ => hu.takes rfl) fun m suffix hm hs hend => ?_⟩
    exact read_chain_two_of (afterWord?_append hnot hs) (hu.goesOn m suffix hm hs hend)
  by_cases h10 : k = 10
  · subst h10
    obtain ⟨used, rfl, hu⟩ := ih _ _ _ _ rfl (read_chain_ten h) hx
    refine ⟨used, rfl, .succ hu.balanced (fun _ => hu.takes rfl) fun m suffix hm hs hend => ?_⟩
    exact read_chain_ten_of (hu.goesOn m suffix hm hs hend)
  · obtain ⟨left, r, hleft, h⟩ := read_chain h2 h10 h
    obtain ⟨more, rfl, hmore⟩ := ih _ _ _ _ rfl h hx
    obtain ⟨used, rfl, hused⟩ := ih _ _ _ _ rfl hleft (plain_of_chainFrom h hx)
    exact ⟨used ++ more, (List.append_assoc _ _ _).symm, hused.chain h2 h10 hmore⟩

theorem readsOn_chainFrom (ih : ReadsOn n) {k : ℕ} {left : Node}
    (h : read (n + 1) (.chainFrom k left) ts = some (x, rest)) (hx : x.Plain) :
    ∃ used, ts = used ++ rest ∧ ReadOn (n + 1) (.chainFrom k left) x used rest := by
  rcases read_chainFrom h with ⟨hjoin, rfl, rfl⟩ | ⟨join, r, right, r', hjoin, hright, h⟩
  · refine ⟨[], rfl, .succ balanced_nil nofun fun m suffix hm hs hend => ?_⟩
    exact read_chainFrom_of_none (joinAt?_append hjoin hs hend)
  · have hjoined := plain_of_chainFrom h hx
    obtain ⟨s, o, rfl, hk, ho, rfl, -, hplain⟩ := joinAt?_plain hjoin hjoined
    obtain ⟨h0, h1, h3⟩ := strength_of_joiningSigns hk
    obtain ⟨more, rfl, hmore⟩ := ih _ _ _ _ rfl h hx
    obtain ⟨used, rfl, hused⟩ := ih _ _ _ _ rfl hright hplain
    have hsign : (Token.sign s).isPlain = true ∧ s ≠ .openRound ∧ s ≠ .closeRound := by
      cases s <;> cases ho <;> exact ⟨rfl, by simp, by simp⟩
    refine ⟨.sign s :: (used ++ more), by simp, .succ ?_ nofun ?_⟩
    · exact (hused.balanced.append hmore.balanced).cons hsign.1 (by simpa using hsign.2.1)
        (by simpa using hsign.2.2)
    · intro m suffix hm hs hend
      have hfirst := hused.goesOn m suffix hm hs fun hnil =>
        hend (List.append_eq_nil_iff.mp hnil).2
      rw [← List.append_assoc] at hfirst
      exact read_chainFrom_of_join (joinAt?_sign h0 h1 h3 hk ho _) hfirst
        (hmore.goesOn m suffix hm hs hend)

theorem readsOn_factor (ih : ReadsOn n) (h : read (n + 1) .factor ts = some (x, rest))
    (hx : x.Plain) : ∃ used, ts = used ++ rest ∧ ReadOn (n + 1) .factor x used rest := by
  rcases read_factor h hx with ⟨s, o, r, y, rfl, ho, hy, rfl⟩ | ⟨hno, h⟩
  · rw [plain_unary] at hx
    obtain ⟨used, rfl, hu⟩ := ih _ _ _ _ rfl hy hx.2
    have hsign : (Token.sign s).isPlain = true ∧ s ≠ .openRound ∧ s ≠ .closeRound := by
      cases s <;> cases ho <;> exact ⟨rfl, by simp, by simp⟩
    refine ⟨.sign s :: used, rfl, .succ ?_ (fun _ => List.cons_ne_nil _ _) ?_⟩
    · exact hu.balanced.cons hsign.1 (by simpa using hsign.2.1) (by simpa using hsign.2.2)
    · intro m suffix hm hs hend
      exact read_factor_of_sign ho (hu.goesOn m suffix hm hs hend)
  · obtain ⟨used, rfl, hu⟩ := ih _ _ _ _ rfl h hx
    refine ⟨used, rfl, .succ hu.balanced (fun _ => hu.takes rfl) fun m suffix hm hs hend => ?_⟩
    refine read_factor_of_none (fun s r heq => ?_) (hu.goesOn m suffix hm hs hend)
    obtain ⟨t, us, rfl⟩ := List.exists_cons_of_ne_nil (hu.takes rfl)
    obtain ⟨rfl, -⟩ := List.cons.inj heq
    exact hno s _ rfl

theorem readsOn_power (ih : ReadsOn n) (h : read (n + 1) .power ts = some (x, rest))
    (hx : x.Plain) : ∃ used, ts = used ++ rest ∧ ReadOn (n + 1) .power x used rest := by
  obtain ⟨hawait, base, r, hbase, ⟨hpower, rfl, rfl⟩ | ⟨r', e, rfl, he, rfl⟩⟩ := read_power h hx
  · obtain ⟨used, rfl, hu⟩ := ih _ _ _ _ rfl hbase hx
    refine ⟨used, rfl, .succ hu.balanced (fun _ => hu.takes rfl) fun m suffix hm hs hend => ?_⟩
    refine read_power_of_none (afterWord?_append hawait hs)
      (hu.goesOn m suffix hm hs fun hnil => endsOperand_of_endsExpression (hend hnil)) ?_
    exact afterSign?_append hpower fun hnil =>
      afterSign?_of_endsExpression (hend hnil) (by decide) (by decide)
  · rw [plain_binary] at hx
    obtain ⟨used, rfl, hu⟩ := ih _ _ _ _ rfl hbase hx.1
    obtain ⟨more, rfl, hmore⟩ := ih _ _ _ _ rfl he hx.2.2
    refine ⟨used ++ .sign .power :: more, by simp, .succ ?_ (fun _ => by simp) ?_⟩
    · exact hu.balanced.append (hmore.balanced.cons rfl (by simp) (by simp))
    · intro m suffix hm hs hend
      have hfirst := hu.goesOn m suffix hm hs nofun
      have hsecond := hmore.goesOn m suffix hm hs hend
      simp only [List.append_assoc, List.cons_append] at hfirst hsecond hawait ⊢
      refine read_power_of_power ?_ hfirst hsecond
      simpa using afterWord?_append hawait hs

/-! ## Arguments and primaries -/

theorem readsOn_arguments (ih : ReadsOn n) {begun : Bool} {k : ℕ} {xs : List Node}
    (h : readArguments (read n) begun false false k ts = some (xs, false, rest))
    (hx : AllPlain xs) :
    ∃ used, ts = used ++ .sign .closeRound :: rest ∧ Balanced used ∧
      ∀ m k' suffix, n ≤ m → k ≤ k' → beginsWithSign suffix = true →
        readArguments (read m) begun false false k' (ts ++ suffix) =
          some (xs, false, rest ++ suffix) := by
  induction k generalizing begun ts xs with
  | zero => cases h
  | succ k ihk =>
    rcases readArguments_plain h hx with ⟨rfl, rfl⟩ | ⟨y, r, hclose, hpos, hy, hfor, hr⟩
    · refine ⟨[], rfl, balanced_nil, fun m k' suffix hm hk hs => ?_⟩
      cases k' with
      | zero => omega
      | succ k' => exact readArguments_close _
    · have hyplain : y.Plain := by
        rcases hr with ⟨-, rfl⟩ | ⟨r', ys, -, -, rfl⟩
        · exact hx.1
        · exact hx.1
      obtain ⟨u, rfl, hu⟩ := ih _ _ _ _ rfl hy hyplain
      have hune := hu.takes rfl
      -- the first argument is read in the same way, whatever becomes of the others
      have hfirst : ∀ m k' suffix, n ≤ m → beginsWithSign suffix = true → r ≠ [] →
          (begun = true ∨ afterFor? (r ++ suffix) = none) →
          readArguments (read m) begun false false (k' + 1) (u ++ r ++ suffix) =
            argumentsAfter (read m) k' false false (some y) (r ++ suffix) := by
        intro m k' suffix hm hs hne hfor'
        have hlen : 2 ≤ (u ++ r).length := by
          have h1 := List.length_pos_iff.mpr hune
          have h2 := List.length_pos_iff.mpr hne
          rw [List.length_append]
          omega
        refine readArguments_positional (afterSign?_append hclose fun hnil => ?_)
          (startsPositional_append hpos hlen)
          (hu.goesOn m suffix hm hs fun hnil => absurd hnil hne) hfor'
        exact absurd (List.append_eq_nil_iff.mp hnil).1 hune
      rcases hr with ⟨rfl, rfl⟩ | ⟨r', ys, rfl, hys, rfl⟩
      · refine ⟨u, rfl, hu.balanced, fun m k' suffix hm hk hs => ?_⟩
        cases k' with
        | zero => omega
        | succ k' =>
          rw [hfirst m k' suffix hm hs (List.cons_ne_nil _ _) (.inr rfl)]
          exact argumentsAfter_close y _
      · obtain ⟨used, rfl, hbal, hon⟩ := ihk hys hx.2
        refine ⟨u ++ .sign .comma :: used, by simp, ?_, fun m k' suffix hm hk hs => ?_⟩
        · exact hu.balanced.append (hbal.cons rfl (by simp) (by simp))
        · cases k' with
          | zero => omega
          | succ k' =>
            rw [hfirst m k' suffix hm hs (List.cons_ne_nil _ _) (.inr rfl)]
            exact argumentsAfter_comma (hon m k' suffix hm (by omega) hs)

theorem readsOn_primary (ih : ReadsOn n) (h : read (n + 1) .primary ts = some (x, rest))
    (hx : x.Plain) : ∃ used, ts = used ++ rest ∧ ReadOn (n + 1) .primary x used rest := by
  obtain ⟨y, r, hy, h⟩ := read_primary h
  obtain ⟨more, rfl, hmore⟩ := ih _ _ _ _ rfl h hx
  obtain ⟨used, rfl, hu⟩ := ih _ _ _ _ rfl hy (plain_of_primaryFrom h hx)
  refine ⟨used ++ more, (List.append_assoc _ _ _).symm,
    .succ (hu.balanced.append hmore.balanced) ?_ ?_⟩
  · exact fun _ hnil => hu.takes rfl (List.append_eq_nil_iff.mp hnil).1
  · intro m suffix hm hs hend
    have hfirst := hu.goesOn m suffix hm hs fun hnil =>
      hend (List.append_eq_nil_iff.mp hnil).2
    rw [← List.append_assoc] at hfirst
    exact read_primary_of hfirst (hmore.goesOn m suffix hm hs hend)

theorem readsOn_primaryFrom (ih : ReadsOn n) {left : Node}
    (h : read (n + 1) (.primaryFrom left) ts = some (x, rest)) (hx : x.Plain) :
    ∃ used, ts = used ++ rest ∧ ReadOn (n + 1) (.primaryFrom left) x used rest := by
  rcases read_primaryFrom h hx with ⟨hends, rfl, rfl⟩ | ⟨r, xs, r', rfl, hxs, hargs, h⟩
  · refine ⟨[], rfl, .succ balanced_nil nofun fun m suffix hm hs hend => ?_⟩
    exact readPrimaryFrom_of_ends (endsPrimary_append hends hs hend)
  · obtain ⟨more, rfl, hmore⟩ := ih _ _ _ _ rfl h hx
    obtain ⟨used, rfl, hbal, hon⟩ := readsOn_arguments ih hargs hxs
    refine ⟨.sign .openRound :: used ++ [.sign .closeRound] ++ more, by simp, .succ ?_ nofun ?_⟩
    · exact hbal.brackets.append hmore.balanced
    · intro m suffix hm hs hend
      have hfirst := hon m ((used ++ .sign .closeRound :: (more ++ rest) ++ suffix).length + 1)
        suffix (by omega) (by simp) hs
      have hsecond := hmore.goesOn m suffix hm hs hend
      simp only [List.append_assoc, List.cons_append, List.nil_append] at hfirst hsecond ⊢
      exact read_primaryFrom_of_call hfirst hsecond

/-- An operand of a single word. -/
theorem readOn_word {t : Token} (hplain : t.isPlain = true) (hopen : t ≠ .sign .openRound)
    (hclose : t ≠ .sign .closeRound)
    (hread : ∀ m us, read (m + 1) .atom (t :: us) = some (x, us)) :
    ReadOn (n + 1) .atom x [t] rest :=
  .succ (balanced_singleton hplain hopen hclose) (fun _ => List.cons_ne_nil _ _)
    fun m suffix _ _ _ => hread m (rest ++ suffix)

theorem readsOn_atom (ih : ReadsOn n) (h : read (n + 1) .atom ts = some (x, rest))
    (hx : x.Plain) : ∃ used, ts = used ++ rest ∧ ReadOn (n + 1) .atom x used rest := by
  rcases read_atom h hx with ⟨id, rfl, hid, rfl⟩ | ⟨k, rfl, rfl⟩ | ⟨d, rfl, rfl⟩ |
    ⟨r, rfl, hstart, h⟩
  · exact ⟨[.name id], rfl, readOn_word rfl (by simp) (by simp) fun _ _ => readAtom_name hid⟩
  · exact ⟨[.whole k], rfl, readOn_word rfl (by simp) (by simp) fun _ _ => rfl⟩
  · exact ⟨[.decimal d], rfl, readOn_word rfl (by simp) (by simp) fun _ _ => rfl⟩
  · obtain ⟨used, rfl, hu⟩ := ih _ _ _ _ rfl h hx
    refine ⟨.sign .openRound :: used ++ [.sign .closeRound], by simp,
      .succ hu.balanced.brackets (fun _ => by simp) fun m suffix hm hs hend => ?_⟩
    have hitem := hu.goesOn m suffix hm hs nofun
    have hstart' : startsItem (used ++ .sign .closeRound :: rest ++ suffix) = true :=
      startsItem_append hstart (by simp)
    simp only [List.append_assoc, List.cons_append, List.nil_append] at hitem hstart' ⊢
    exact readRound_of_item hstart' hx hitem

/-- Every plain tree is read on, at every depth. -/
theorem readsOn (n : ℕ) : ReadsOn n := by
  induction n with
  | zero =>
    intro g ts x rest _ h
    cases h
  | succ n ih =>
    intro g ts x rest hg h hx
    cases g with
    | named => exact readsOn_named ih h hx
    | item => exact readsOn_item ih h hx
    | expression => exact readsOn_expression ih h hx
    | chain k => exact readsOn_chain ih h hx
    | chainFrom k left => exact readsOn_chainFrom ih h hx
    | factor => exact readsOn_factor ih h hx
    | power => exact readsOn_power ih h hx
    | primary => exact readsOn_primary ih h hx
    | primaryFrom left => exact readsOn_primaryFrom ih h hx
    | atom => exact readsOn_atom ih h hx
    | target => cases hg
    | slice => cases hg
    | lambda => cases hg
    | loops => cases hg
    | entry => cases hg

end

end QuantumGates
