-- Trees of arithmetic. Whether a tree has a refused node is asked level after level; it is the
-- same as to ask each node. A tree without refused nodes, and a tree that means something, is made
-- of names, numbers, operators and calls only. A text is read as the formula that the tree means
-- which is evaluated of its words.
import Mathlib.Data.Nat.Notation
import Mathlib.Tactic.Tauto
import QuantumGates.Expression.Formula

namespace QuantumGates

namespace Node

/-! ## Refused nodes -/

mutual

/-- No node of the tree is refused. -/
def Accepted : Node → Prop
  | mk kind parts => (mk kind parts).refusal? = none ∧ AllAccepted parts

/-- No node of the trees is refused. -/
def AllAccepted : List Node → Prop
  | [] => True
  | n :: ns => n.Accepted ∧ AllAccepted ns

end

theorem accepted_iff (n : Node) : n.Accepted ↔ n.refusal? = none ∧ AllAccepted n.parts := by
  cases n with
  | mk kind parts => rw [Accepted, Node.parts]

theorem allAccepted_append (ns ms : List Node) :
    AllAccepted (ns ++ ms) ↔ AllAccepted ns ∧ AllAccepted ms := by
  induction ns with
  | nil => rw [List.nil_append, AllAccepted, true_and]
  | cons n ns ih => rw [List.cons_append, AllAccepted, AllAccepted, ih, and_assoc]

/-- The nodes of a level and those of all lower levels. -/
theorem allAccepted_iff (level : List Node) :
    AllAccepted level ↔
      level.findSome? refusal? = none ∧ AllAccepted (level.flatMap parts) := by
  induction level with
  | nil => simp [AllAccepted]
  | cons n ns ih =>
    rw [AllAccepted, accepted_iff, ih, List.flatMap_cons, allAccepted_append,
      List.findSome?_cons]
    cases n.refusal? with
    | none => tauto
    | some label => simp

theorem heights_append (ns ms : List Node) :
    heights (ns ++ ms) = max (heights ns) (heights ms) := by
  induction ns with
  | nil => rw [List.nil_append, heights, Nat.zero_max]
  | cons n ns ih => rw [List.cons_append, heights, heights, ih, Nat.max_assoc]

theorem heights_parts_lt {level : List Node} {n : ℕ} (h : heights level ≤ n + 1) :
    heights (level.flatMap parts) ≤ n := by
  induction level with
  | nil => exact Nat.zero_le n
  | cons x xs ih =>
    rw [heights] at h
    rw [List.flatMap_cons, heights_append]
    have hx : heights x.parts ≤ n := by
      cases x with
      | mk kind parts =>
        rw [height] at h
        rw [Node.parts]
        omega
    have hxs := ih (by omega)
    omega

theorem refusedWithin_eq_none {n : ℕ} {level : List Node} (h : heights level ≤ n) :
    refusedWithin n level = none ↔ AllAccepted level := by
  induction n generalizing level with
  | zero =>
    cases level with
    | nil => simp [refusedWithin, AllAccepted]
    | cons x xs =>
      cases x with
      | mk kind parts =>
        rw [heights, height] at h
        omega
  | succ n ih =>
    rw [allAccepted_iff, refusedWithin]
    cases level.findSome? refusal? with
    | none => simpa using ih (heights_parts_lt h)
    | some label => simp

/-- A tree has no first refused node if it has none at all. -/
theorem firstRefused_eq_none (n : Node) : n.firstRefused = none ↔ n.Accepted := by
  have hheight : heights [n] = n.height := by
    rw [heights, heights, Nat.max_zero]
  unfold firstRefused
  rw [refusedWithin_eq_none (Nat.le_of_eq hheight), AllAccepted, AllAccepted, and_true]

/-! ## Arithmetic -/

/-- The kinds of nodes that arithmetic has. -/
def IsPlainKind : NodeKind → Prop
  | .other _ => False
  | .call named => named = false
  | _ => True

mutual

/-- The tree is made of kinds of nodes that arithmetic has. -/
def Plain : Node → Prop
  | mk kind parts => IsPlainKind kind ∧ AllPlain parts

/-- The trees are made of such kinds of nodes. -/
def AllPlain : List Node → Prop
  | [] => True
  | n :: ns => n.Plain ∧ AllPlain ns

end

@[simp] theorem not_plain_other (label : String) (ps : List Node) : ¬ (other label ps).Plain := by
  intro h
  unfold other at h
  rw [Plain] at h
  exact h.1

@[simp] theorem plain_binary (l o r : Node) :
    (mk .binary [l, o, r]).Plain ↔ l.Plain ∧ o.Plain ∧ r.Plain := by
  simp [Plain, AllPlain, IsPlainKind]

@[simp] theorem plain_unary (o x : Node) : (mk .unary [o, x]).Plain ↔ o.Plain ∧ x.Plain := by
  simp [Plain, AllPlain, IsPlainKind]

@[simp] theorem plain_call (named : Bool) (f : Node) (xs : List Node) :
    (mk (.call named) (f :: xs)).Plain ↔ named = false ∧ f.Plain ∧ AllPlain xs := by
  simp [Plain, AllPlain, IsPlainKind]

@[simp] theorem not_plain_leaf_other (label : String) : ¬ (leaf (.other label)).Plain :=
  not_plain_other label []

mutual

theorem Accepted.plain {n : Node} (h : n.Accepted) : n.Plain := by
  cases n with
  | mk kind parts =>
    rw [Accepted] at h
    rw [Plain]
    refine ⟨?_, AllAccepted.plain h.2⟩
    cases kind with
    | other label => exact absurd h.1 (by simp [refusal?])
    | call named =>
      cases named with
      | true => exact absurd h.1 (by simp [refusal?])
      | false => rfl
    | _ => trivial

theorem AllAccepted.plain {ns : List Node} (h : AllAccepted ns) : AllPlain ns := by
  cases ns with
  | nil => trivial
  | cons n ns =>
    rw [AllAccepted] at h
    rw [AllPlain]
    exact ⟨Accepted.plain h.1, AllAccepted.plain h.2⟩

end

/-! ## Meaning -/

theorem meaning?_mk (kind : NodeKind) (parts : List Node) :
    (mk kind parts).meaning? = (meanings? parts).bind (Meaning.ofParts kind) := by
  rw [meaning?]

theorem meanings?_cons {n : Node} {ns : List Node} {m : Meaning} {ms : List Meaning}
    (hn : n.meaning? = some m) (hns : meanings? ns = some ms) :
    meanings? (n :: ns) = some (m :: ms) := by
  rw [meanings?, hn, hns]

mutual

/-- A tree that means something is made of the kinds that arithmetic has. -/
theorem plain_of_meaning? {n : Node} {m : Meaning} (h : n.meaning? = some m) : n.Plain := by
  cases n with
  | mk kind parts =>
    rw [meaning?_mk] at h
    rw [Plain]
    obtain ⟨ms, hms, hkind⟩ := Option.bind_eq_some_iff.mp h
    refine ⟨?_, allPlain_of_meanings? hms⟩
    cases kind with
    | other label => exact absurd hkind (by simp [Meaning.ofParts])
    | call named =>
      cases named with
      | true => exact absurd hkind (by simp [Meaning.ofParts])
      | false => rfl
    | _ => trivial

theorem allPlain_of_meanings? {ns : List Node} {ms : List Meaning}
    (h : meanings? ns = some ms) : AllPlain ns := by
  cases ns with
  | nil => trivial
  | cons n ns =>
    rw [meanings?] at h
    rw [AllPlain]
    cases hn : n.meaning? with
    | none =>
      rw [hn] at h
      cases h
    | some m =>
      cases hns : meanings? ns with
      | none =>
        rw [hn, hns] at h
        cases h
      | some ms' => exact ⟨plain_of_meaning? hn, allPlain_of_meanings? hns⟩

end

end Node

/-! ## The formula of a text -/

namespace Formula

theorem ofNode_eq_ok_iff {n : Node} {f : Formula} :
    ofNode n = .ok f ↔ n.meaning? = some (.value f) := by
  unfold ofNode
  cases n.meaning? with
  | none => simp
  | some m => cases m <;> simp

/-- A text is read as a formula just when the tree of its words that is checked is accepted, the
words are nested within the limit, and the tree that is evaluated means the formula. -/
theorem readWithin_eq_ok_iff {limit : Option ℕ} {text : String} {f : Formula} :
    readWithin limit text = .ok f ↔
      ∃ ts checked node, tokensWithin? limit text = some ts ∧ Node.checked? ts = some checked ∧
        checked.Accepted ∧ exceeds limit (deepest 0 ts) = false ∧
        Node.evaluated? ts = some node ∧ node.meaning? = some (.value f) := by
  unfold readWithin
  constructor
  · intro h
    split at h
    · cases h
    rename_i ts hwords
    split at h
    · cases h
    rename_i checked hchecked
    split at h
    · cases h
    rename_i hrefused
    split at h
    · cases h
    rename_i hdeepest
    split at h
    · cases h
    rename_i node hnode
    exact ⟨ts, checked, node, hwords, hchecked, (Node.firstRefused_eq_none checked).mp hrefused,
      Bool.eq_false_iff.mpr hdeepest, hnode, ofNode_eq_ok_iff.mp h⟩
  · rintro ⟨ts, checked, node, hwords, hchecked, haccepted, hdeepest, hnode, hf⟩
    have hrefused := (Node.firstRefused_eq_none checked).mpr haccepted
    simp only [hwords, hchecked, hrefused, hdeepest, Bool.false_eq_true, if_false, hnode,
      ofNode_eq_ok_iff.mpr hf]

end Formula

end QuantumGates
