-- Parts of derived words. Where an operand may begin in words of arithmetic, a primary stands there
-- that is derived by itself, and the words after a comma are arguments up to the bracket that
-- closes the call. What holds of a tree and comes down to its operands and arguments holds of the
-- tree of such a part.
import Mathlib.Data.List.Basic
import QuantumGates.Proofs.Expression.Grammar

namespace QuantumGates

open Node

/-! ## What comes down to parts -/

/-- What holds of a tree by `Q` gives `P` for its operands and arguments and `Q` for what is
called. -/
structure ComesDown (P Q : Node → Prop) : Prop where
  weaken {x : Node} : P x → Q x
  unary {o : Operator} {x : Node} : Q (.mk .unary [.leaf (.operator o), x]) → P x
  binary {o : Operator} {x y : Node} : Q (.mk .binary [x, .leaf (.operator o), y]) → P x ∧ P y
  call {y : Node} {xs : List Node} : Q (.mk (.call false) (y :: xs)) → Q y ∧ ∀ x ∈ xs, P x

/-- The tree is arithmetic with a value. -/
def Node.IsValue (x : Node) : Prop := ∃ f, x.meaning? = some (.value f)

/-- The tree is arithmetic, or a name that may stand in it. -/
def Node.HasMeaning (x : Node) : Prop := ∃ m, x.meaning? = some m

theorem meanings?_cons_eq_some {n : Node} {ns : List Node} {ms : List Meaning}
    (h : meanings? (n :: ns) = some ms) :
    ∃ m ms', ms = m :: ms' ∧ n.meaning? = some m ∧ meanings? ns = some ms' := by
  rw [meanings?] at h
  cases hn : n.meaning? with
  | none =>
    rw [hn] at h
    cases h
  | some m =>
    cases hns : meanings? ns with
    | none =>
      rw [hn, hns] at h
      cases h
    | some ms' =>
      rw [hn, hns] at h
      cases h
      exact ⟨m, ms', rfl, rfl, rfl⟩

theorem exists_meaning_of_mem {ns : List Node} {ms : List Meaning} (h : meanings? ns = some ms) :
    ∀ n ∈ ns, ∃ m ∈ ms, n.meaning? = some m := by
  induction ns generalizing ms with
  | nil => nofun
  | cons n ns ih =>
    obtain ⟨m, ms', rfl, hn, hns⟩ := meanings?_cons_eq_some h
    intro n' hn'
    rcases List.mem_cons.mp hn' with rfl | hn'
    · exact ⟨m, List.mem_cons_self, hn⟩
    · obtain ⟨m', hm', hmeans⟩ := ih hns n' hn'
      exact ⟨m', List.mem_cons_of_mem m hm', hmeans⟩

theorem mem_of_allAccepted {ns : List Node} (h : AllAccepted ns) : ∀ n ∈ ns, n.Accepted := by
  induction ns with
  | nil => nofun
  | cons n ns ih =>
    rw [AllAccepted] at h
    intro m hm
    rcases List.mem_cons.mp hm with rfl | hm
    · exact h.1
    · exact ih h.2 m hm

theorem accepted_comesDown : ComesDown Accepted Accepted where
  weaken h := h
  unary h := ((accepted_iff _).mp h).2.2.1
  binary h := ⟨((accepted_iff _).mp h).2.1, ((accepted_iff _).mp h).2.2.2.1⟩
  call h := ⟨((accepted_iff _).mp h).2.1, mem_of_allAccepted ((accepted_iff _).mp h).2.2⟩

theorem isValue_of_unary {o : Operator} {x : Node}
    (h : (mk .unary [.leaf (.operator o), x]).HasMeaning) : x.IsValue := by
  obtain ⟨m, hm⟩ := h
  rw [meaning?_mk] at hm
  obtain ⟨ms, hms, hparts⟩ := Option.bind_eq_some_iff.mp hm
  obtain ⟨mo, ms, rfl, ho, hms⟩ := meanings?_cons_eq_some hms
  obtain ⟨mx, ms, rfl, hx, hms⟩ := meanings?_cons_eq_some hms
  cases hms
  cases ho
  cases mx with
  | value f => exact ⟨f, hx⟩
  | _ => cases hparts

theorem isValue_of_binary {o : Operator} {x y : Node}
    (h : (mk .binary [x, .leaf (.operator o), y]).HasMeaning) : x.IsValue ∧ y.IsValue := by
  obtain ⟨m, hm⟩ := h
  rw [meaning?_mk] at hm
  obtain ⟨ms, hms, hparts⟩ := Option.bind_eq_some_iff.mp hm
  obtain ⟨mx, ms, rfl, hx, hms⟩ := meanings?_cons_eq_some hms
  obtain ⟨mo, ms, rfl, ho, hms⟩ := meanings?_cons_eq_some hms
  obtain ⟨my, ms, rfl, hy, hms⟩ := meanings?_cons_eq_some hms
  cases hms
  cases ho
  cases mx with
  | value f =>
    cases my with
    | value g => exact ⟨⟨f, hx⟩, g, hy⟩
    | _ => cases hparts
  | _ => cases hparts

/-- A function is called on values, one at least. -/
theorem values_of_call {f : Fn} {ms : List Meaning} {m : Meaning} (h : Meaning.call f ms = some m) :
    ms ≠ [] ∧ ∀ m ∈ ms, ∃ f, m = .value f := by
  unfold Meaning.call at h
  split at h
  · simp
  · simp
  · cases h

/-- A call with a meaning has arguments, and they are values. -/
theorem isValue_of_call {y : Node} {xs : List Node}
    (h : (mk (.call false) (y :: xs)).HasMeaning) :
    y.HasMeaning ∧ xs ≠ [] ∧ ∀ x ∈ xs, x.IsValue := by
  obtain ⟨m, hm⟩ := h
  rw [meaning?_mk] at hm
  obtain ⟨ms, hms, hparts⟩ := Option.bind_eq_some_iff.mp hm
  obtain ⟨my, ms, rfl, hy, hargs⟩ := meanings?_cons_eq_some hms
  cases my with
  | function f =>
    obtain ⟨hne, hvalues⟩ := values_of_call hparts
    refine ⟨⟨_, hy⟩, ?_, fun x hx => ?_⟩
    · rintro rfl
      cases hargs
      exact hne rfl
    · obtain ⟨m', hm', hmeans⟩ := exists_meaning_of_mem hargs x hx
      obtain ⟨g, rfl⟩ := hvalues m' hm'
      exact ⟨g, hmeans⟩
  | _ => cases hparts

theorem isValue_comesDown : ComesDown IsValue HasMeaning where
  weaken h := by
    obtain ⟨f, hf⟩ := h
    exact ⟨_, hf⟩
  unary h := isValue_of_unary h
  binary h := isValue_of_binary h
  call h := ⟨(isValue_of_call h).1, (isValue_of_call h).2.2⟩

/-! ## Positions -/

section

variable {A B pre more : List Token} {t : Token}

/-- A word of two lists one after another is a word of the first or of the second one. -/
theorem append_eq_append_cons (h : A ++ B = pre ++ t :: more) :
    (∃ r, A = pre ++ t :: r ∧ more = r ++ B) ∨ ∃ p, pre = A ++ p ∧ B = p ++ t :: more := by
  rcases List.append_eq_append_iff.mp h with ⟨p, rfl, hB⟩ | ⟨r, rfl, hmore⟩
  · exact .inr ⟨p, rfl, hB⟩
  · cases r with
    | nil => exact .inr ⟨[], by simp, hmore.symm⟩
    | cons u r =>
      obtain ⟨rfl, rfl⟩ := List.cons.inj hmore
      exact .inl ⟨r, rfl, rfl⟩

theorem cons_eq_append_cons {a : Token} (h : a :: B = pre ++ t :: more) :
    (pre = [] ∧ a = t ∧ B = more) ∨ ∃ p, pre = a :: p ∧ B = p ++ t :: more := by
  cases pre with
  | nil =>
    obtain ⟨rfl, rfl⟩ := List.cons.inj h
    exact .inl ⟨rfl, rfl, rfl⟩
  | cons b p =>
    obtain ⟨rfl, rfl⟩ := List.cons.inj h
    exact .inr ⟨p, rfl, rfl⟩

end

/-- The words with which an operand may begin, but for those that are reserved. -/
def Token.beginsOperand : Token → Bool
  | .name _ | .whole _ | .decimal _ => true
  | .sign s => s == .openRound
  | _ => false

/-- The last word is the end of an operand. -/
def endsInOperand (ts : List Token) : Bool :=
  match ts.getLast? with
  | some (.sign s) => s == .closeRound
  | some _ => true
  | none => false

/-- What is between these words stands alone in a bracket. -/
def Alone (pre post : List Token) : Prop :=
  pre.getLast? = some (.sign .openRound) ∧ post.head? = some (.sign .closeRound)

/-- After the words `pre`, a primary stands at the head of `words`, and `P` holds of its tree
unless it stands alone in a bracket. Nothing calls the primary. -/
def StandsAt (P : Node → Prop) (pre words : List Token) : Prop :=
  ∃ ws post y, words = ws ++ post ∧ Derives .primary ws y ∧
    afterSign? .openRound post = none ∧ (Alone pre post ∨ P y)

/-- The rule of a goal may come to a primary after these words of it. -/
def Goal.mayOpen (pre : List Token) : Goal → Bool
  | .chainFrom _ _ | .primaryFrom _ => !pre.isEmpty
  | _ => true

section

variable {P Q : Node → Prop} {g : Goal} {A B pre post words ts us more : List Token} {t : Token}
  {x y : Node} {xs : List Node}

theorem endsInOperand_append (hB : B ≠ []) : endsInOperand (A ++ B) = endsInOperand B := by
  unfold endsInOperand
  rw [List.getLast?_append_of_ne_nil A hB]

/-- After an operand no other one begins. -/
theorem ne_nil_of_endsInOperand (hA : endsInOperand A = true)
    (h : endsInOperand (A ++ B) = false) : B ≠ [] := by
  rintro rfl
  rw [List.append_nil, hA] at h
  cases h

theorem endsInOperand_right (h : endsInOperand (A ++ B) = false) : endsInOperand B = false := by
  cases B with
  | nil => rfl
  | cons b B => rwa [endsInOperand_append (List.cons_ne_nil b B)] at h

theorem StandsAt.after (h : StandsAt P pre words) (A : List Token) :
    StandsAt P (A ++ pre) words := by
  obtain ⟨ws, post, y, hwords, hderives, hpost, hy⟩ := h
  refine ⟨ws, post, y, hwords, hderives, hpost, hy.imp (fun ⟨hopen, hclose⟩ => ⟨?_, hclose⟩) id⟩
  cases pre with
  | nil => cases hopen
  | cons a pre => rwa [List.getLast?_append_of_ne_nil A (List.cons_ne_nil a pre)]

/-- What stands in some words stands in longer words, if no bracket comes right after them. -/
theorem StandsAt.before (h : StandsAt P pre words) (hB : afterSign? .openRound B = none) :
    StandsAt P pre (words ++ B) := by
  obtain ⟨ws, post, y, rfl, hderives, hpost, hy⟩ := h
  refine ⟨ws, post ++ B, y, List.append_assoc _ _ _, hderives, afterSign?_append hpost fun _ => hB,
    hy.imp (fun ⟨hopen, hclose⟩ => ⟨hopen, ?_⟩) id⟩
  cases post with
  | nil => cases hclose
  | cons c post => exact hclose

theorem endsInOperand_of_parts (hA : endsInOperand A = true)
    (hB : B ≠ [] → endsInOperand B = true) : endsInOperand (A ++ B) = true := by
  cases B with
  | nil => rwa [List.append_nil]
  | cons b B => rw [endsInOperand_append (List.cons_ne_nil b B), hB (List.cons_ne_nil b B)]

theorem endsInOperand_concat (A : List Token) :
    endsInOperand (A ++ [.sign .closeRound]) = true := by
  rw [endsInOperand_append (List.cons_ne_nil _ _)]
  rfl

theorem ne_nil_of_opens {g : Goal} (hg : g.takesWord = true) (h : g.opensWith ts = true) :
    ts ≠ [] := by
  rintro rfl
  unfold Goal.opensWith at h
  split at h
  · cases h
  · cases h
  · cases hg
  · cases hg
  · cases h

/-! ## Primaries -/

theorem AtomWord.endsInOperand (h : AtomWord t x) : QuantumGates.endsInOperand [t] = true := by
  cases h <;> rfl

/-- The words of an operand end in a name, a number or a closing bracket. -/
theorem Derives.endsInOperand : ∀ {g : Goal} {ts : List Token} {x : Node}, Derives g ts x →
    ts ≠ [] → QuantumGates.endsInOperand ts = true
  | _, _, _, .chain _ h h', _ =>
    endsInOperand_of_parts (h.endsInOperand (ne_nil_of_opens rfl h.opens)) h'.endsInOperand
  | _, _, _, .factor h, hne => h.endsInOperand hne
  | _, _, _, .chainEnd, hne => absurd rfl hne
  | _, _, _, @Derives.join _ s _ ts us _ _ _ _ _ h h', _ => by
    have hts := h.endsInOperand (ne_nil_of_opens rfl h.opens)
    rw [← List.singleton_append, ← List.append_assoc]
    refine endsInOperand_of_parts ?_ h'.endsInOperand
    rwa [endsInOperand_append (ne_nil_of_opens rfl h.opens)]
  | _, _, _, @Derives.signed s _ ts _ _ h, _ => by
    have hne := ne_nil_of_opens rfl h.opens
    rw [← List.singleton_append, endsInOperand_append hne]
    exact h.endsInOperand hne
  | _, _, _, .unsigned h, hne => h.endsInOperand hne
  | _, _, _, .base h, hne => h.endsInOperand hne
  | _, _, _, @Derives.raised ts us _ _ _ h', _ => by
    have hne := ne_nil_of_opens rfl h'.opens
    rw [← List.singleton_append, ← List.append_assoc, endsInOperand_append hne]
    exact h'.endsInOperand hne
  | _, _, _, .word ht h, _ => endsInOperand_of_parts ht.endsInOperand h.endsInOperand
  | _, _, _, @Derives.bracket ts us _ _ _ h, _ => by
    have hbracket := endsInOperand_of_parts (endsInOperand_concat (.sign .openRound :: ts))
      h.endsInOperand
    rwa [List.append_assoc] at hbracket
  | _, _, _, .primaryEnd, hne => absurd rfl hne
  | _, _, _, @Derives.call ts us _ _ _ _ h', _ => by
    have hcalled := endsInOperand_of_parts (endsInOperand_concat (.sign .openRound :: ts))
      h'.endsInOperand
    rwa [List.append_assoc] at hcalled

/-- What holds of a tree comes down to what stands to the left of the goal. -/
def Goal.LeftHolds (Q : Node → Prop) : Goal → Prop
  | .chainFrom _ l | .primaryFrom l => Q l
  | _ => True

theorem Derives.leftHolds (hPQ : ComesDown P Q) : ∀ {g : Goal} {ts : List Token} {x : Node},
    Derives g ts x → Q x → g.LeftHolds Q
  | _, _, _, .chainEnd, hx => hx
  | _, _, _, .join _ _ _ h, hx => hPQ.weaken (hPQ.binary (h.leftHolds hPQ hx)).1
  | _, _, _, .primaryEnd, hx => hx
  | _, _, _, .call _ h, hx => (hPQ.call (h.leftHolds hPQ hx)).1
  | _, _, _, .chain _ _ _, _ => trivial
  | _, _, _, .factor _, _ => trivial
  | _, _, _, .signed _ _, _ => trivial
  | _, _, _, .unsigned _, _ => trivial
  | _, _, _, .base _, _ => trivial
  | _, _, _, .raised _ _, _ => trivial
  | _, _, _, .word _ _, _ => trivial
  | _, _, _, .bracket _ _, _ => trivial

/-- A primary stands at the head of the words, or the words are one and nothing is before them. -/
def StandsOrIs (P : Node → Prop) (pre words : List Token) (x : Node) : Prop :=
  StandsAt P pre words ∨ pre = [] ∧ Derives .primary words x

theorem StandsOrIs.standsAt (h : StandsOrIs P pre words x) (hx : P x) : StandsAt P pre words := by
  rcases h with h | ⟨rfl, h⟩
  · exact h
  · exact ⟨words, [], x, (List.append_nil _).symm, h, rfl, .inr hx⟩

theorem StandsOrIs.of_ne_nil (h : StandsOrIs P pre words x) (hpre : pre ≠ []) :
    StandsAt P pre words := by
  rcases h with h | ⟨hnil, -⟩
  · exact h
  · exact absurd hnil hpre

/-- No operand begins with a sign that joins operands or stands before one. -/
theorem beginsOperand_operator {s : Sign} {o : Operator}
    (ho : operatorNode s = some (.leaf (.operator o)) ∨
      unaryNode s = some (.leaf (.operator o))) : (Token.sign s).beginsOperand = false := by
  rcases ho with ho | ho
  all_goals cases s <;> cases ho <;> rfl

/-- The rest of a chain begins with no bracket. -/
theorem Derives.afterSign?_chainFrom {k : ℕ} {l : Node} (h : Derives (.chainFrom k l) us x) :
    afterSign? .openRound us = none := by
  cases h with
  | chainEnd => rfl
  | join _ ho _ _ =>
    refine if_neg ?_
    rintro rfl
    cases ho

theorem mayOpen_of_ne_nil (g : Goal) (hpre : pre ≠ []) : g.mayOpen pre = true := by
  cases pre with
  | nil => exact absurd rfl hpre
  | cons a pre => cases g <;> rfl

/-- An operand begins with no word but its own first one. -/
theorem nil_ne_append_cons (h : [] = pre ++ t :: more) : False := by simp at h

/-- After the bracket that closes some words, an operand begins after further words only. -/
theorem exists_after_closing (h : .sign .closeRound :: us = B ++ t :: more)
    (ht : t.beginsOperand = true) (hpre : endsInOperand (A ++ B) = false) :
    ∃ p, B = .sign .closeRound :: p ∧ us = p ++ t :: more ∧ p ≠ [] ∧ endsInOperand p = false := by
  rcases cons_eq_append_cons h with ⟨-, rfl, -⟩ | ⟨p, rfl, hus⟩
  · cases ht
  · rw [← List.singleton_append, ← List.append_assoc] at hpre
    exact ⟨p, rfl, hus, ne_nil_of_endsInOperand (endsInOperand_concat A) hpre,
      endsInOperand_right hpre⟩

mutual

/-- Where a goal may come to a primary, one stands. -/
theorem Derives.standsOrIs (hPQ : ComesDown P Q) : ∀ {g : Goal} {ts : List Token} {x : Node},
    Derives g ts x → Q x → ∀ {pre more : List Token} {t : Token}, ts = pre ++ t :: more →
      t.beginsOperand = true → QuantumGates.endsInOperand pre = false → g.mayOpen pre = true →
        StandsOrIs P pre (t :: more) x
  | _, _, _, .chain hk h h', hx, pre, more, t, hts, ht, hpre, _ => by
    rcases append_eq_append_cons hts with ⟨r, hA, rfl⟩ | ⟨p, rfl, hB⟩
    · have hfirst := h.standsOrIs hPQ (h'.leftHolds hPQ hx) hA ht hpre rfl
      have hrest := h'.afterSign?_chainFrom
      cases h' with
      | chainEnd =>
        rw [List.append_nil]
        exact hfirst
      | join hs ho hr hus =>
        exact .inl ((hfirst.standsAt (hPQ.binary (hus.leftHolds hPQ hx)).1).before hrest)
    · have hne := ne_nil_of_endsInOperand (h.endsInOperand (ne_nil_of_opens rfl h.opens)) hpre
      have hstands := h'.standsOrIs hPQ hx hB ht (endsInOperand_right hpre) (mayOpen_of_ne_nil _ hne)
      exact .inl ((hstands.of_ne_nil hne).after _)
  | _, _, _, .factor h, hx, _, _, _, hts, ht, hpre, _ => h.standsOrIs hPQ hx hts ht hpre rfl
  | _, _, _, .chainEnd, _, _, _, _, hts, _, _, _ => (nil_ne_append_cons hts).elim
  | _, _, _, @Derives.join k s o ts us l r x hs ho h h', hx, pre, more, t, hts, ht, hpre, _ => by
    have hr := (hPQ.binary (h'.leftHolds hPQ hx)).2
    rcases cons_eq_append_cons hts with ⟨-, rfl, -⟩ | ⟨p, rfl, hrest⟩
    · rw [beginsOperand_operator (.inl ho)] at ht
      cases ht
    · have hp := endsInOperand_right (A := [.sign s]) hpre
      rcases append_eq_append_cons hrest with ⟨r, hA, rfl⟩ | ⟨p, rfl, hB⟩
      · have hright := (h.standsOrIs hPQ (hPQ.weaken hr) hA ht hp rfl).standsAt hr
        exact .inl ((hright.before h'.afterSign?_chainFrom).after [.sign s])
      · have hne := ne_nil_of_endsInOperand (h.endsInOperand (ne_nil_of_opens rfl h.opens)) hp
        have hstands := h'.standsOrIs hPQ hx hB ht (endsInOperand_right hp)
          (mayOpen_of_ne_nil _ hne)
        exact .inl (((hstands.of_ne_nil hne).after ts).after [.sign s])
  | _, _, _, @Derives.signed s _ _ _ ho h, hx, pre, more, t, hts, ht, hpre, _ => by
    have hoperand := hPQ.unary hx
    rcases cons_eq_append_cons hts with ⟨-, rfl, -⟩ | ⟨p, rfl, hrest⟩
    · rw [beginsOperand_operator (.inr ho)] at ht
      cases ht
    · have hp := endsInOperand_right (A := [.sign s]) hpre
      have hstands := h.standsOrIs hPQ (hPQ.weaken hoperand) hrest ht hp rfl
      exact .inl ((hstands.standsAt hoperand).after [.sign s])
  | _, _, _, .unsigned h, hx, _, _, _, hts, ht, hpre, _ => h.standsOrIs hPQ hx hts ht hpre rfl
  | _, _, _, .base h, hx, _, _, _, hts, ht, hpre, _ => h.standsOrIs hPQ hx hts ht hpre rfl
  | _, _, _, @Derives.raised ts us b e h h', hx, pre, more, t, hts, ht, hpre, _ => by
    obtain ⟨hb, he⟩ := hPQ.binary hx
    rcases append_eq_append_cons hts with ⟨r, hA, rfl⟩ | ⟨p, rfl, hB⟩
    · have hstands := h.standsOrIs hPQ (hPQ.weaken hb) hA ht hpre rfl
      exact .inl ((hstands.standsAt hb).before rfl)
    · rcases cons_eq_append_cons hB with ⟨-, rfl, -⟩ | ⟨p, rfl, hrest⟩
      · cases ht
      · have hp := endsInOperand_right (A := ts ++ [.sign .power]) (B := p) (by simpa using hpre)
        have hstands := h'.standsOrIs hPQ (hPQ.weaken he) hrest ht hp rfl
        exact .inl (((hstands.standsAt he).after [.sign .power]).after ts)
  | _, _, _, .word hword h, hx, pre, more, t, hts, ht, hpre, _ => by
    rcases cons_eq_append_cons hts with ⟨rfl, rfl, rfl⟩ | ⟨p, rfl, hrest⟩
    · exact .inr ⟨rfl, .word hword h⟩
    · have hne := ne_nil_of_endsInOperand (B := p) hword.endsInOperand hpre
      have hp := endsInOperand_right (A := [_]) hpre
      have hstands := h.standsOrIs hPQ hx hrest ht hp (mayOpen_of_ne_nil _ hne)
      exact .inl ((hstands.of_ne_nil hne).after [_])
  | _, _, _, @Derives.bracket ts us y x h h', hx, pre, more, t, hts, ht, hpre, _ => by
    rcases cons_eq_append_cons hts with ⟨rfl, rfl, rfl⟩ | ⟨p, rfl, hrest⟩
    · exact .inr ⟨rfl, .bracket h h'⟩
    · have hp := endsInOperand_right (A := [.sign .openRound]) hpre
      rcases append_eq_append_cons hrest with ⟨r, hA, rfl⟩ | ⟨p, rfl, hB⟩
      · rcases h.standsOrIs hPQ (h'.leftHolds hPQ hx) hA ht hp rfl with hstands | ⟨rfl, hprimary⟩
        · exact .inl ((hstands.before rfl).after [.sign .openRound])
        · exact .inl ⟨t :: r, _, y, rfl, hprimary, rfl, .inl ⟨rfl, rfl⟩⟩
      · obtain ⟨p, rfl, hus, hne, hp⟩ := exists_after_closing hB ht hp
        have hstands := h'.standsOrIs hPQ hx hus ht hp (mayOpen_of_ne_nil _ hne)
        exact .inl ((((hstands.of_ne_nil hne).after [.sign .closeRound]).after ts).after
          [.sign .openRound])
  | _, _, _, .primaryEnd, _, _, _, _, hts, _, _, _ => (nil_ne_append_cons hts).elim
  | _, _, _, @Derives.call ts us y x xs h h', hx, pre, more, t, hts, ht, hpre, hmay => by
    have hxs := (hPQ.call (h'.leftHolds hPQ hx)).2
    rcases cons_eq_append_cons hts with ⟨rfl, -, -⟩ | ⟨p, rfl, hrest⟩
    · cases hmay
    · have hp := endsInOperand_right (A := [.sign .openRound]) hpre
      rcases append_eq_append_cons hrest with ⟨r, hA, rfl⟩ | ⟨p, rfl, hB⟩
      · have hstands := h.standsAt hPQ hxs hA ht hp
        exact .inl ((hstands.before rfl).after [.sign .openRound])
      · obtain ⟨p, rfl, hus, hne, hp⟩ := exists_after_closing hB ht hp
        have hstands := h'.standsOrIs hPQ hx hus ht hp (mayOpen_of_ne_nil _ hne)
        exact .inl ((((hstands.of_ne_nil hne).after [.sign .closeRound]).after ts).after
          [.sign .openRound])

theorem DerivesArguments.standsAt (hPQ : ComesDown P Q) : ∀ {ts : List Token} {xs : List Node},
    DerivesArguments ts xs → (∀ x ∈ xs, P x) → ∀ {pre more : List Token} {t : Token},
      ts = pre ++ t :: more → t.beginsOperand = true → QuantumGates.endsInOperand pre = false →
        StandsAt P pre (t :: more)
  | _, _, .nil, _, _, _, _, hts, _, _ => (nil_ne_append_cons hts).elim
  | _, _, .last h, hxs, pre, more, t, hts, ht, hpre =>
    (h.standsOrIs hPQ (hPQ.weaken (hxs _ List.mem_cons_self)) hts ht hpre rfl).standsAt
      (hxs _ List.mem_cons_self)
  | _, _, @DerivesArguments.cons ts us x xs h h', hxs, pre, more, t, hts, ht, hpre => by
    have hx := hxs x List.mem_cons_self
    rcases append_eq_append_cons hts with ⟨r, hA, rfl⟩ | ⟨p, rfl, hB⟩
    · have hstands := h.standsOrIs hPQ (hPQ.weaken hx) hA ht hpre rfl
      exact (hstands.standsAt hx).before rfl
    · rcases cons_eq_append_cons hB with ⟨-, rfl, -⟩ | ⟨p, rfl, hrest⟩
      · cases ht
      · have hp := endsInOperand_right (A := ts ++ [.sign .comma]) (B := p) (by simpa using hpre)
        have hstands := h'.standsAt hPQ (fun y hy => hxs y (List.mem_cons_of_mem x hy)) hrest ht hp
        exact (hstands.after [.sign .comma]).after ts

end

/-! ## Arguments -/

/-- Arguments stand at the head of the words, up to the bracket that closes their call, and `P`
holds of their trees. -/
def ArgumentsAt (P : Node → Prop) (words : List Token) : Prop :=
  ∃ ts post xs, words = ts ++ .sign .closeRound :: post ∧ DerivesArguments ts xs ∧ ∀ x ∈ xs, P x

theorem ArgumentsAt.before (h : ArgumentsAt P words) (B : List Token) :
    ArgumentsAt P (words ++ B) := by
  obtain ⟨ts, post, xs, rfl, hts, hxs⟩ := h
  exact ⟨ts, post ++ B, xs, by simp, hts, hxs⟩

theorem DerivesArguments.argumentsAt (h : DerivesArguments ts xs) (hxs : ∀ x ∈ xs, P x)
    (post : List Token) : ArgumentsAt P (ts ++ .sign .closeRound :: post) :=
  ⟨ts, post, xs, rfl, h, hxs⟩

theorem comma_ne_operator {s : Sign} {o : Operator}
    (ho : operatorNode s = some (.leaf (.operator o)) ∨
      unaryNode s = some (.leaf (.operator o))) : s ≠ .comma := by
  rintro rfl
  rcases ho with ho | ho
  · cases ho
  · cases ho

mutual

/-- After a comma stand arguments. -/
theorem Derives.argumentsAt_comma (hPQ : ComesDown P Q) : ∀ {g : Goal} {ts : List Token} {x : Node},
    Derives g ts x → Q x → ∀ {pre more : List Token}, ts = pre ++ .sign .comma :: more →
      ArgumentsAt P more
  | _, _, _, .chain _ h h', hx, pre, more, hts => by
    rcases append_eq_append_cons hts with ⟨r, hA, rfl⟩ | ⟨p, -, hB⟩
    · exact (h.argumentsAt_comma hPQ (h'.leftHolds hPQ hx) hA).before _
    · exact h'.argumentsAt_comma hPQ hx hB
  | _, _, _, .factor h, hx, _, _, hts => h.argumentsAt_comma hPQ hx hts
  | _, _, _, .chainEnd, _, _, _, hts => (nil_ne_append_cons hts).elim
  | _, _, _, .join _ ho h h', hx, pre, more, hts => by
    rcases cons_eq_append_cons hts with ⟨-, heq, -⟩ | ⟨p, -, hrest⟩
    · exact absurd (Token.sign.inj heq) (comma_ne_operator (.inl ho))
    · rcases append_eq_append_cons hrest with ⟨r, hA, rfl⟩ | ⟨p, -, hB⟩
      · have hr := (hPQ.binary (h'.leftHolds hPQ hx)).2
        exact (h.argumentsAt_comma hPQ (hPQ.weaken hr) hA).before _
      · exact h'.argumentsAt_comma hPQ hx hB
  | _, _, _, .signed ho h, hx, pre, more, hts => by
    rcases cons_eq_append_cons hts with ⟨-, heq, -⟩ | ⟨p, -, hrest⟩
    · exact absurd (Token.sign.inj heq) (comma_ne_operator (.inr ho))
    · exact h.argumentsAt_comma hPQ (hPQ.weaken (hPQ.unary hx)) hrest
  | _, _, _, .unsigned h, hx, _, _, hts => h.argumentsAt_comma hPQ hx hts
  | _, _, _, .base h, hx, _, _, hts => h.argumentsAt_comma hPQ hx hts
  | _, _, _, .raised h h', hx, pre, more, hts => by
    obtain ⟨hb, he⟩ := hPQ.binary hx
    rcases append_eq_append_cons hts with ⟨r, hA, rfl⟩ | ⟨p, -, hB⟩
    · exact (h.argumentsAt_comma hPQ (hPQ.weaken hb) hA).before _
    · rcases cons_eq_append_cons hB with ⟨-, heq, -⟩ | ⟨p, -, hrest⟩
      · cases heq
      · exact h'.argumentsAt_comma hPQ (hPQ.weaken he) hrest
  | _, _, _, .word hword h, hx, pre, more, hts => by
    rcases cons_eq_append_cons hts with ⟨-, rfl, -⟩ | ⟨p, -, hrest⟩
    · cases hword
    · exact h.argumentsAt_comma hPQ hx hrest
  | _, _, _, .bracket h h', hx, pre, more, hts => by
    rcases cons_eq_append_cons hts with ⟨-, heq, -⟩ | ⟨p, -, hrest⟩
    · cases heq
    · rcases append_eq_append_cons hrest with ⟨r, hA, rfl⟩ | ⟨p, -, hB⟩
      · exact (h.argumentsAt_comma hPQ (h'.leftHolds hPQ hx) hA).before _
      · rcases cons_eq_append_cons hB with ⟨-, heq, -⟩ | ⟨p, -, hus⟩
        · cases heq
        · exact h'.argumentsAt_comma hPQ hx hus
  | _, _, _, .primaryEnd, _, _, _, hts => (nil_ne_append_cons hts).elim
  | _, _, _, .call h h', hx, pre, more, hts => by
    have hxs := (hPQ.call (h'.leftHolds hPQ hx)).2
    rcases cons_eq_append_cons hts with ⟨-, heq, -⟩ | ⟨p, -, hrest⟩
    · cases heq
    · rcases append_eq_append_cons hrest with ⟨r, hA, rfl⟩ | ⟨p, -, hB⟩
      · exact h.argumentsAt_comma hPQ hxs hA _
      · rcases cons_eq_append_cons hB with ⟨-, heq, -⟩ | ⟨p, -, hus⟩
        · cases heq
        · exact h'.argumentsAt_comma hPQ hx hus

theorem DerivesArguments.argumentsAt_comma (hPQ : ComesDown P Q) :
    ∀ {ts : List Token} {xs : List Node}, DerivesArguments ts xs → (∀ x ∈ xs, P x) →
      ∀ {pre more : List Token}, ts = pre ++ .sign .comma :: more → ∀ post,
        ArgumentsAt P (more ++ .sign .closeRound :: post)
  | _, _, .nil, _, _, _, hts, _ => (nil_ne_append_cons hts).elim
  | _, _, .last h, hxs, _, _, hts, _ =>
    (h.argumentsAt_comma hPQ (hPQ.weaken (hxs _ List.mem_cons_self)) hts).before _
  | _, _, @DerivesArguments.cons ts us x xs h h', hxs, pre, more, hts, post => by
    have hrest : ∀ y ∈ xs, P y := fun y hy => hxs y (List.mem_cons_of_mem x hy)
    rcases append_eq_append_cons hts with ⟨r, hA, rfl⟩ | ⟨p, -, hB⟩
    · exact ((h.argumentsAt_comma hPQ (hPQ.weaken (hxs x List.mem_cons_self)) hA).before _).before _
    · rcases cons_eq_append_cons hB with ⟨-, -, rfl⟩ | ⟨p, -, hus⟩
      · exact h'.argumentsAt hrest post
      · exact h'.argumentsAt_comma hPQ hrest hus post

end

end

end QuantumGates
