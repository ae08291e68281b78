-- Words of arithmetic, however strongly their signs join. The grammar of `Arithmetic` has operands
-- with signs before and between them and does not say which sign joins first. It accepts the same
-- words as the grammar with strengths, so a change of the strength of a sign changes trees but not
-- what is accepted. A caret may stand where a power may, so it accepts both or neither.
import QuantumGates.Proofs.Expression.Enclosed
import QuantumGates.Proofs.Expression.Written

namespace QuantumGates

open Node

/-! ## Arithmetic without strengths -/

/-- A word with its tree, in any number of brackets. -/
inductive Bracketed (t : Token) (y : Node) : List Token → Prop
  | word : AtomWord t y → Bracketed t y [t]
  | brackets {ts : List Token} : Bracketed t y ts →
      Bracketed t y (.sign .openRound :: (ts ++ [.sign .closeRound]))

/-- The parts that words of arithmetic may be. -/
inductive Form
  | operand
  /-- An operand with its signs. -/
  | signed
  /-- Operands with signs between them. -/
  | joined
  /-- What stands between the brackets of a call. -/
  | arguments

/-- The words are arithmetic of a form: their names and calls are accepted, and any sign may join
any operands. -/
inductive Arithmetic : Form → List Token → Prop
  | word {t : Token} {y : Node} : AtomWord t y → y.Accepted → Arithmetic .operand [t]
  | brackets {ts : List Token} : Arithmetic .joined ts →
      Arithmetic .operand (.sign .openRound :: (ts ++ [.sign .closeRound]))
  | call {t : Token} {y : Node} {ts us : List Token} : Bracketed t y ts → y.Accepted →
      callsFunction [y] = true → Arithmetic .arguments us →
      Arithmetic .operand (ts ++ .sign .openRound :: (us ++ [.sign .closeRound]))
  | unsigned {ts : List Token} : Arithmetic .operand ts → Arithmetic .signed ts
  | signed {s : Sign} {o : Operator} {ts : List Token} :
      unaryNode s = some (.leaf (.operator o)) → Arithmetic .signed ts →
      Arithmetic .signed (.sign s :: ts)
  | single {ts : List Token} : Arithmetic .signed ts → Arithmetic .joined ts
  | join {s : Sign} {o : Operator} {ts us : List Token} :
      operatorNode s = some (.leaf (.operator o)) → Arithmetic .joined ts → Arithmetic .signed us →
      Arithmetic .joined (ts ++ .sign s :: us)
  | none : Arithmetic .arguments []
  | last {ts : List Token} : Arithmetic .joined ts → Arithmetic .arguments ts
  | more {ts us : List Token} : Arithmetic .joined ts → Arithmetic .arguments us →
      Arithmetic .arguments (ts ++ .sign .comma :: us)

section

variable {s : Sign} {o : Operator} {ts us : List Token} {t : Token} {x y : Node} {k : ℕ} {tail : List Token}

theorem Arithmetic.joined_signed (ho : unaryNode s = some (.leaf (.operator o)))
    (h : Arithmetic .joined ts) : Arithmetic .joined (.sign s :: ts) := by
  generalize hform : Form.joined = form at h
  induction h with
  | single h _ => exact .single (.signed ho h)
  | join ho' _ h' ih _ => exact .join ho' (ih hform) h'
  | _ => cases hform

theorem Arithmetic.joined_append (ho : operatorNode s = some (.leaf (.operator o)))
    (hts : Arithmetic .joined ts) (h : Arithmetic .joined us) :
    Arithmetic .joined (ts ++ .sign s :: us) := by
  generalize hform : Form.joined = form at h
  induction h with
  | single h _ => exact .join ho hts h
  | @join s' o' as bs ho' _ h' ih _ =>
    rw [← List.cons_append, ← List.append_assoc]
    exact .join ho' (ih hform) h'
  | _ => cases hform

/-! ## What is derived is arithmetic -/

/-- What the words of a goal are if a function is called by their tree: its name in brackets, and
nothing after what stands before the goal. -/
def Goal.isCallee (ts : List Token) (x : Node) : Goal → Prop
  | .chainFrom _ l | .primaryFrom l => ts = [] ∧ l = x
  | _ => ∃ t, Bracketed t x ts

theorem Derives.isCallee : ∀ {g : Goal} {ts : List Token} {x : Node}, Derives g ts x →
    callsFunction [x] = true → g.isCallee ts x
  | _, _, _, .chain _ h h', hx => by
    obtain ⟨rfl, rfl⟩ := h'.isCallee hx
    rw [List.append_nil]
    exact h.isCallee hx
  | _, _, _, .factor h, hx => h.isCallee hx
  | _, _, _, .chainEnd, _ => ⟨rfl, rfl⟩
  | _, _, _, .join _ _ _ h, hx => by
    obtain ⟨-, rfl⟩ := h.isCallee hx
    cases hx
  | _, _, _, .signed _ _, hx => nomatch hx
  | _, _, _, .unsigned h, hx => h.isCallee hx
  | _, _, _, .base h, hx => h.isCallee hx
  | _, _, _, .raised _ _, hx => nomatch hx
  | _, _, _, .word ht h, hx => by
    obtain ⟨rfl, rfl⟩ := h.isCallee hx
    exact ⟨_, .word ht⟩
  | _, _, _, .bracket h h', hx => by
    obtain ⟨rfl, rfl⟩ := h'.isCallee hx
    obtain ⟨t, ht⟩ := h.isCallee hx
    exact ⟨t, .brackets ht⟩
  | _, _, _, .primaryEnd, _ => ⟨rfl, rfl⟩
  | _, _, _, .call _ h, hx => by
    obtain ⟨-, rfl⟩ := h.isCallee hx
    cases hx

/-- What the words of a goal are if its tree is accepted, together with what stands before them. -/
def Goal.isArithmetic (ts : List Token) : Goal → Prop
  | .chainFrom _ _ => ∀ ls, Arithmetic .joined ls → Arithmetic .joined (ls ++ ts)
  | .primaryFrom l => ∀ ls, Arithmetic .operand ls →
      (callsFunction [l] = true → ∃ t, Bracketed t l ls) → Arithmetic .operand (ls ++ ts)
  | .primary => Arithmetic .operand ts
  | _ => Arithmetic .joined ts

theorem callsFunction_of_accepted {xs : List Node} (h : (Node.mk (.call false) (y :: xs)).Accepted) :
    callsFunction [y] = true := by
  have hcall := ((accepted_iff _).mp h).1
  by_contra hno
  rw [Bool.not_eq_true] at hno
  have hrefused : (Node.mk (.call false) (y :: xs)).refusal? = some "Call" :=
    if_pos (congrArg (!·) hno)
  rw [hrefused] at hcall
  cases hcall

mutual

theorem Derives.isArithmetic : ∀ {g : Goal} {ts : List Token} {x : Node}, Derives g ts x →
    x.Accepted → g.isArithmetic ts
  | _, _, _, .chain _ h h', hx =>
    h'.isArithmetic hx _ (h.isArithmetic (h'.leftHolds accepted_comesDown hx))
  | _, _, _, .factor h, hx => h.isArithmetic hx
  | _, _, _, .chainEnd, _ => fun ls hls => (List.append_nil ls).symm ▸ hls
  | _, _, _, .join _ ho h h', hx => fun ls hls => by
    have hright := (accepted_comesDown.binary (h'.leftHolds accepted_comesDown hx)).2
    have hjoined := h'.isArithmetic hx _ (hls.joined_append ho (h.isArithmetic hright))
    rwa [List.append_assoc, List.cons_append] at hjoined
  | _, _, _, .signed ho h, hx => (h.isArithmetic (accepted_comesDown.unary hx)).joined_signed ho
  | _, _, _, .unsigned h, hx => h.isArithmetic hx
  | _, _, _, .base h, hx => .single (.unsigned (h.isArithmetic hx))
  | _, _, _, .raised h h', hx => by
    obtain ⟨hb, he⟩ := accepted_comesDown.binary hx
    have hbase : Arithmetic .joined _ := .single (.unsigned (h.isArithmetic hb))
    exact hbase.joined_append rfl (h'.isArithmetic he)
  | _, _, _, .word ht h, hx =>
    h.isArithmetic hx [_] (.word ht (h.leftHolds accepted_comesDown hx)) fun _ => ⟨_, .word ht⟩
  | _, _, _, @Derives.bracket ts us y x h h', hx => by
    have hinner : Arithmetic .joined ts := h.isArithmetic (h'.leftHolds accepted_comesDown hx)
    have hprimary := h'.isArithmetic hx _ (.brackets hinner) fun hcall => by
      obtain ⟨t, ht⟩ := h.isCallee hcall
      exact ⟨t, .brackets ht⟩
    rwa [List.cons_append, List.append_assoc] at hprimary
  | _, _, _, .primaryEnd, _ => fun ls hls _ => (List.append_nil ls).symm ▸ hls
  | _, _, _, .call h h', hx => fun ls hls hcallee => by
    have hcall := h'.leftHolds accepted_comesDown hx
    obtain ⟨hy, hargs⟩ := accepted_comesDown.call hcall
    have hfunction := callsFunction_of_accepted hcall
    obtain ⟨t, ht⟩ := hcallee hfunction
    have hprimary := h'.isArithmetic hx _ (.call ht hy hfunction (h.isArithmetic hargs)) nofun
    rwa [List.append_assoc, List.cons_append, List.append_assoc] at hprimary

theorem DerivesArguments.isArithmetic : ∀ {ts : List Token} {xs : List Node},
    DerivesArguments ts xs → (∀ x ∈ xs, x.Accepted) → Arithmetic .arguments ts
  | _, _, .nil, _ => .none
  | _, _, .last h, hxs => .last (h.isArithmetic (hxs _ List.mem_cons_self))
  | _, _, .cons h h', hxs => .more (h.isArithmetic (hxs _ List.mem_cons_self))
    (h'.isArithmetic fun x hx => hxs x (List.mem_cons_of_mem _ hx))

end

/-! ## Arithmetic is derived -/

/-- However a goal is derived, further words behind its own can be used as well, and an accepted
tree stays one. -/
def Extends (g : Goal) (tail : List Token) : Prop :=
  ∀ ts x, Derives g ts x → ∃ x', Derives g (ts ++ tail) x' ∧ (x.Accepted → x'.Accepted)

theorem accepted_binary_iff {l r : Node} : (Node.mk .binary [l, .leaf (.operator o), r]).Accepted ↔
    l.Accepted ∧ r.Accepted :=
  ⟨fun h => accepted_comesDown.binary h, fun h => accepted_binary o h.1 h.2⟩

/-- Where the operands of a chain can be extended, its last operand is, or that before the chain if
there is no other. -/
theorem Extends.chainFrom (htail : Extends (.chain (k + 1)) tail) :
    ∀ {us : List Token} {l x : Node}, Derives (.chainFrom k l) us x → us = [] ∧ x = l ∨
      ∃ x', Derives (.chainFrom k l) (us ++ tail) x' ∧ (x.Accepted → x'.Accepted)
  | _, _, _, .chainEnd => .inl ⟨rfl, rfl⟩
  | _, _, _, @Derives.join _ s o ts us l r x hs ho h h' => by
    right
    rw [List.cons_append, List.append_assoc]
    rcases Extends.chainFrom htail h' with ⟨rfl, rfl⟩ | ⟨x', hx', haccepted⟩
    · obtain ⟨r', hr', haccepted⟩ := htail ts r h
      have hjoined := Derives.join hs ho hr' (.chainEnd (l := .mk .binary [l, _, r']))
      rw [List.append_nil] at hjoined
      exact ⟨_, hjoined, fun hx => accepted_binary_iff.mpr
        ((accepted_binary_iff.mp hx).imp_right haccepted)⟩
    · exact ⟨x', .join hs ho h hx', haccepted⟩
termination_by us => us.length
decreasing_by simp only [List.length_cons, List.length_append]; omega

theorem Extends.chain (hk : k < 10) (htail : Extends (.chain (k + 1)) tail) :
    Extends (.chain k) tail := by
  intro ts x h
  cases h with
  | factor _ => exact absurd hk (Nat.lt_irrefl 10)
  | @chain _ ts us l _ _ h h' =>
    rw [List.append_assoc]
    rcases htail.chainFrom h' with ⟨rfl, rfl⟩ | ⟨x', hx', haccepted⟩
    · obtain ⟨l', hl', haccepted⟩ := htail ts x h
      have hchain := Derives.chain hk hl' .chainEnd
      rw [List.append_nil] at hchain
      exact ⟨l', hchain, haccepted⟩
    · exact ⟨x', .chain hk h hx', haccepted⟩

theorem Extends.expression (hk : k ≤ 10) (htail : Extends (.chain k) tail) :
    Extends (.chain 0) tail := by
  induction k with
  | zero => exact htail
  | succ k ih => exact ih (Nat.le_of_succ_le hk) (htail.chain hk)

/-- A chain takes a further operand of its own strength. -/
theorem Derives.append_chainFrom (hs : (joiningSigns k).contains s = true)
    (ho : operatorNode s = some (.leaf (.operator o))) (hy : Derives (.chain (k + 1)) us y) :
    ∀ {ts : List Token} {l x : Node}, Derives (.chainFrom k l) ts x →
      Derives (.chainFrom k l) (ts ++ .sign s :: us) (.mk .binary [x, .leaf (.operator o), y])
  | _, l, _, .chainEnd => by
    have hjoined := Derives.join hs ho hy (.chainEnd (l := .mk .binary [l, _, y]))
    rwa [List.append_nil] at hjoined
  | _, _, _, .join hs' ho' h h' => by
    rw [List.cons_append, List.append_assoc]
    exact .join hs' ho' h (Derives.append_chainFrom hs ho hy h')
termination_by ts => ts.length
decreasing_by simp only [List.length_cons, List.length_append]; omega

theorem extends_join (hs : (joiningSigns k).contains s = true)
    (ho : operatorNode s = some (.leaf (.operator o))) (hy : Derives (.chain (k + 1)) us y)
    (haccepted : y.Accepted) : Extends (.chain k) (.sign s :: us) := by
  intro ts x h
  cases h with
  | chain hk h h' =>
    rw [List.append_assoc]
    exact ⟨_, .chain hk h (Derives.append_chainFrom hs ho hy h'),
      fun hx => accepted_binary_iff.mpr ⟨hx, haccepted⟩⟩
  | factor h => cases hs

/-- The last operand takes an exponent. -/
theorem append_exponent (hy : Derives .factor us y) (haccepted : y.Accepted) :
    ∀ {g : Goal} {ts : List Token} {x : Node}, Derives g ts x → g = .factor ∨ g = .power →
      ∃ x', Derives g (ts ++ .sign .power :: us) x' ∧ (x.Accepted → x'.Accepted)
  | _, _, _, .signed ho h, _ => by
    obtain ⟨x', hx', hstays⟩ := append_exponent hy haccepted h (.inl rfl)
    exact ⟨_, .signed ho hx', fun hx => accepted_unary _ (hstays (accepted_comesDown.unary hx))⟩
  | _, _, _, .unsigned h, _ => by
    obtain ⟨x', hx', hstays⟩ := append_exponent hy haccepted h (.inr rfl)
    exact ⟨x', .unsigned hx', hstays⟩
  | _, _, _, .base h, _ =>
    ⟨_, .raised h hy, fun hx => accepted_binary _ hx haccepted⟩
  | _, _, _, .raised h h', _ => by
    obtain ⟨x', hx', hstays⟩ := append_exponent hy haccepted h' (.inl rfl)
    rw [List.append_assoc, List.cons_append]
    exact ⟨_, .raised h hx', fun hx => accepted_binary_iff.mpr
      ((accepted_binary_iff.mp hx).imp_right hstays)⟩
  | _, _, _, .chain _ _ _, hg | _, _, _, .factor _, hg | _, _, _, .chainEnd, hg
  | _, _, _, .join _ _ _ _, hg | _, _, _, .word _ _, hg | _, _, _, .bracket _ _, hg
  | _, _, _, .primaryEnd, hg | _, _, _, .call _ _, hg => by simp at hg

theorem extends_exponent (hy : Derives .factor us y) (haccepted : y.Accepted) :
    Extends (.chain 10) (.sign .power :: us) := by
  intro ts x h
  cases h with
  | chain hk _ _ => exact absurd hk (Nat.lt_irrefl 10)
  | factor h =>
    obtain ⟨x', hx', hstays⟩ := append_exponent hy haccepted h (.inl rfl)
    exact ⟨x', .factor hx', hstays⟩

/-- Any sign of arithmetic may join a further operand to an expression. -/
theorem extends_operand (ho : operatorNode s = some (.leaf (.operator o)))
    (hy : Derives .factor us y) (haccepted : y.Accepted) : Extends (.chain 0) (.sign s :: us) := by
  have hjoin (k : ℕ) (hk : k < 10) (hs : (joiningSigns k).contains s = true) :
      Extends (.chain 0) (.sign s :: us) :=
    (extends_join hs ho (hy.chain_of_factor hk) haccepted).expression (Nat.le_of_lt hk)
  cases s with
  | plus | minus => exact hjoin 8 (by decide) (by decide)
  | star | slash => exact hjoin 9 (by decide) (by decide)
  | caret => exact hjoin 5 (by decide) (by decide)
  | power => exact (extends_exponent hy haccepted).expression (Nat.le_refl 10)
  | _ => cases ho

/-! ## The same words -/

theorem Bracketed.derives (h : Bracketed t y ts) (hmore : Derives (.primaryFrom y) us x) :
    Derives .primary (ts ++ us) x := by
  induction h generalizing us x with
  | word ht => exact .word ht hmore
  | @brackets ts _ ih =>
    have hinner := ih .primaryEnd
    rw [List.append_nil] at hinner
    rw [List.cons_append, List.append_assoc]
    exact .bracket hinner.expression_of_primary hmore

theorem accepted_call {xs : List Node} (hy : y.Accepted) (hfunction : callsFunction [y] = true)
    (hxs : ∀ x ∈ xs, x.Accepted) : (Node.mk (.call false) (y :: xs)).Accepted := by
  have hall : AllAccepted xs := by
    induction xs with
    | nil => trivial
    | cons x xs ih =>
      exact ⟨hxs x List.mem_cons_self, ih fun x hx => hxs x (List.mem_cons_of_mem _ hx)⟩
  have hcalls : callsFunction (y :: xs) = true := hfunction
  have hnone : (Node.mk (.call false) (y :: xs)).refusal? = none := if_neg (by simp [hcalls])
  exact (accepted_iff _).mpr ⟨hnone, hy, hall⟩

/-- An accepted tree of a form. -/
def Form.IsDerived (ts : List Token) : Form → Prop
  | .operand => ∃ x, Derives .primary ts x ∧ x.Accepted
  | .signed => ∃ x, Derives .factor ts x ∧ x.Accepted
  | .joined => ∃ x, Derives (.chain 0) ts x ∧ x.Accepted
  | .arguments => ∃ xs, DerivesArguments ts xs ∧ ∀ x ∈ xs, x.Accepted

theorem Arithmetic.isDerived {form : Form} (h : Arithmetic form ts) : form.IsDerived ts := by
  induction h with
  | word ht hy => exact ⟨_, .word ht .primaryEnd, hy⟩
  | brackets _ ih =>
    obtain ⟨x, hx, haccepted⟩ := ih
    exact ⟨x, .bracket hx .primaryEnd, haccepted⟩
  | call ht hy hfunction _ ih =>
    obtain ⟨xs, hxs, haccepted⟩ := ih
    exact ⟨_, ht.derives (.call hxs .primaryEnd), accepted_call hy hfunction haccepted⟩
  | unsigned _ ih =>
    obtain ⟨x, hx, haccepted⟩ := ih
    exact ⟨x, .unsigned (.base hx), haccepted⟩
  | signed ho _ ih =>
    obtain ⟨x, hx, haccepted⟩ := ih
    exact ⟨_, .signed ho hx, accepted_unary _ haccepted⟩
  | single _ ih =>
    obtain ⟨x, hx, haccepted⟩ := ih
    exact ⟨x, hx.chain_of_factor (Nat.zero_le 10), haccepted⟩
  | join ho _ _ ih ih' =>
    obtain ⟨x, hx, hleft⟩ := ih
    obtain ⟨y, hy, hright⟩ := ih'
    obtain ⟨x', hx', hstays⟩ := extends_operand ho hy hright _ x hx
    exact ⟨x', hx', hstays hleft⟩
  | none => exact ⟨[], .nil, nofun⟩
  | last _ ih =>
    obtain ⟨x, hx, haccepted⟩ := ih
    exact ⟨[x], .last hx, List.forall_mem_singleton.mpr haccepted⟩
  | more _ _ ih ih' =>
    obtain ⟨x, hx, hfirst⟩ := ih
    obtain ⟨xs, hxs, hrest⟩ := ih'
    exact ⟨x :: xs, .cons hx hxs, List.forall_mem_cons.mpr ⟨hfirst, hrest⟩⟩

/-- The words have a tree that the check of syntax accepts. -/
def IsAccepted (ts : List Token) : Prop := ∃ x, readAll? ts = some x ∧ x.firstRefused = none

/-- Words are accepted just when they are arithmetic, however strongly their signs join. -/
theorem isAccepted_iff : IsAccepted ts ↔ Arithmetic .joined ts := by
  constructor
  · rintro ⟨x, hread, hrefused⟩
    have haccepted := (firstRefused_eq_none x).mp hrefused
    exact (readAll?_eq_some_iff.mp ⟨hread, haccepted.plain⟩).isArithmetic haccepted
  · intro h
    obtain ⟨x, hx, haccepted⟩ := h.isDerived
    exact ⟨x, (readAll?_eq_some_iff.mpr hx).1, (firstRefused_eq_none x).mpr haccepted⟩

end

end QuantumGates
