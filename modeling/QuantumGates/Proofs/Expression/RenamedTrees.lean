-- Other names in words, trees and formulas. Where each name stands for what it stood for, a variable
-- under its new name and every other name for itself, the grammar takes the same words, the trees are
-- accepted together, and what a tree means is the same formula with other variables.
import QuantumGates.Proofs.Expression.CaretAsPower
import QuantumGates.Proofs.Expression.RenamedTexts

namespace QuantumGates

/-- Only variables get other names, and these are names of variables, too. -/
def KeepsMeaning (r : String → String) : Prop :=
  ∀ id, r id = id ∨ isReservedName id = false ∧ isReservedName (r id) = false

/-! ## Trees with other names -/

def NodeKind.renamed (r : String → String) : NodeKind → NodeKind
  | .name id => .name (r id)
  | kind => kind

mutual

/-- A tree with other names. -/
def Node.renamed (r : String → String) : Node → Node
  | .mk kind parts => .mk (kind.renamed r) (Node.renamedAll r parts)

/-- Several trees with other names. -/
def Node.renamedAll (r : String → String) : List Node → List Node
  | [] => []
  | n :: ns => n.renamed r :: Node.renamedAll r ns

end

/-- What is read next, with other names in the tree before it. -/
def Goal.renamed (r : String → String) : Goal → Goal
  | .chainFrom k left => .chainFrom k (left.renamed r)
  | .primaryFrom left => .primaryFrom (left.renamed r)
  | g => g

/-- A formula with other variables. -/
def Formula.renamed (r : String → String) : Formula → Formula
  | .var name => .var (r name)
  | .negate x => .negate (x.renamed r)
  | .binary o x y => .binary o (x.renamed r) (y.renamed r)
  | .call f x => .call f (x.renamed r)
  | .call₂ f x y => .call₂ f (x.renamed r) (y.renamed r)
  | f => f

def Meaning.renamed (r : String → String) : Meaning → Meaning
  | .value x => .value (x.renamed r)
  | m => m

section

variable {r : String → String} {id : String}

theorem Node.renamed_leaf (kind : NodeKind) :
    (Node.leaf kind).renamed r = .leaf (kind.renamed r) := by
  rw [Node.leaf, Node.renamed, Node.renamedAll, Node.leaf]

/-! ## What names stand for -/

/-- What holds of all variables alike holds of a name if it holds of the other one for it. -/
theorem KeepsMeaning.same {α : Type} {f : String → α} {a : α} (hr : KeepsMeaning r)
    (hf : ∀ id, isReservedName id = false → f id = a) (id : String) : f (r id) = f id := by
  rcases hr id with hid | ⟨hid, hid'⟩
  · rw [hid]
  · rw [hf id hid, hf (r id) hid']

theorem eq_of_isReservedName (h : isReservedName id = false) :
    reservedWords.contains id = false ∧ Fn.ofName? id = none ∧ Constant.ofName? id = none ∧
      numberKindNames.contains id = false ∧ id.startsWith "__" = false := by
  simp only [isReservedName, Bool.or_eq_false_iff, Option.isSome_eq_false_iff,
    Option.isNone_iff_eq_none] at h
  obtain ⟨⟨⟨⟨hword, hfunction⟩, hconstant⟩, hkind⟩, hlines⟩ := h
  exact ⟨hword, hfunction, hconstant, hkind, hlines⟩

theorem contains_reservedWords_renamed (hr : KeepsMeaning r) (id : String) :
    reservedWords.contains (r id) = reservedWords.contains id :=
  hr.same (fun _ h => (eq_of_isReservedName h).1) id

theorem ofName?_renamed (hr : KeepsMeaning r) (id : String) : Fn.ofName? (r id) = Fn.ofName? id :=
  hr.same (fun _ h => (eq_of_isReservedName h).2.1) id

theorem startsWith_renamed (hr : KeepsMeaning r) (id : String) :
    (r id).startsWith "__" = id.startsWith "__" :=
  hr.same (f := fun id => id.startsWith "__") (fun _ h => (eq_of_isReservedName h).2.2.2.2) id

theorem Meaning.ofName_renamed (hr : KeepsMeaning r) (id : String) :
    ofName (r id) = (ofName id).renamed r := by
  rcases hr id with hid | ⟨hid, hid'⟩
  · rw [hid]
    unfold ofName
    split
    · rfl
    · rfl
    · split
      · rfl
      · exact congrArg (fun name => value (.var name)) hid.symm
  · obtain ⟨-, hfunction, hconstant, hkind, -⟩ := eq_of_isReservedName hid
    obtain ⟨-, hfunction', hconstant', hkind', -⟩ := eq_of_isReservedName hid'
    unfold ofName
    rw [hfunction, hconstant, hkind, hfunction', hconstant', hkind']
    rfl

/-! ## The grammar -/

theorem AtomWord.renamed (hr : KeepsMeaning r) {t : Token} {y : Node} (h : AtomWord t y) :
    AtomWord (t.renamed r) (y.renamed r) := by
  cases h with
  | name hid =>
    rw [Node.renamed_leaf]
    exact .name ((contains_reservedWords_renamed hr _).trans hid)
  | whole =>
    rw [Node.renamed_leaf]
    exact .whole
  | decimal =>
    rw [Node.renamed_leaf]
    exact .decimal

theorem Node.renamed_unary (o : Operator) (x : Node) :
    (Node.mk .unary [.leaf (.operator o), x]).renamed r =
      .mk .unary [.leaf (.operator o), x.renamed r] := by
  simp only [Node.renamed, Node.renamedAll, Node.leaf]
  rfl

theorem Node.renamed_binary (l : Node) (o : Operator) (x : Node) :
    (Node.mk .binary [l, .leaf (.operator o), x]).renamed r =
      .mk .binary [l.renamed r, .leaf (.operator o), x.renamed r] := by
  simp only [Node.renamed, Node.renamedAll, Node.leaf]
  rfl

mutual

theorem Derives.renamed (hr : KeepsMeaning r) : ∀ {g : Goal} {ts : List Token} {x : Node},
    Derives g ts x → Derives (g.renamed r) (ts.map (Token.renamed r)) (x.renamed r)
  | _, _, _, .chain hk h h' => by
    rw [List.map_append]
    exact .chain hk (h.renamed hr) (h'.renamed hr)
  | _, _, _, .factor h => .factor (h.renamed hr)
  | _, _, _, .chainEnd => .chainEnd
  | _, _, _, .join hs ho h h' => by
    have hrest := h'.renamed hr
    rw [Goal.renamed, Node.renamed_binary] at hrest
    rw [List.map_cons, List.map_append]
    exact .join hs ho (h.renamed hr) hrest
  | _, _, _, .signed ho h => by
    rw [Node.renamed_unary]
    exact .signed ho (h.renamed hr)
  | _, _, _, .unsigned h => .unsigned (h.renamed hr)
  | _, _, _, .base h => .base (h.renamed hr)
  | _, _, _, .raised h h' => by
    rw [Node.renamed_binary, List.map_append, List.map_cons]
    exact .raised (h.renamed hr) (h'.renamed hr)
  | _, _, _, .word ht h => .word (ht.renamed hr) (h.renamed hr)
  | _, _, _, .bracket h h' => by
    rw [List.map_cons, List.map_append, List.map_cons]
    exact .bracket (h.renamed hr) (h'.renamed hr)
  | _, _, _, .primaryEnd => .primaryEnd
  | _, _, _, .call h h' => by
    rw [List.map_cons, List.map_append, List.map_cons]
    exact .call (h.renamed hr) (h'.renamed hr)

theorem DerivesArguments.renamed (hr : KeepsMeaning r) : ∀ {ts : List Token} {xs : List Node},
    DerivesArguments ts xs →
      DerivesArguments (ts.map (Token.renamed r)) (Node.renamedAll r xs)
  | _, _, .nil => .nil
  | _, _, .last h => .last (h.renamed hr)
  | _, _, .cons h h' => by
    rw [List.map_append, List.map_cons]
    exact .cons (h.renamed hr) (h'.renamed hr)

end

/-- The tree of words with other names. -/
theorem readAll?_renamed (hr : KeepsMeaning r) {ts : List Token} {x : Node}
    (h : readAll? ts = some x) (hx : x.Plain) :
    readAll? (ts.map (Token.renamed r)) = some (x.renamed r) := by
  have hderives := readAll?_eq_some_iff.mp ⟨h, hx⟩
  exact (readAll?_eq_some_iff.mpr (hderives.renamed hr)).1

/-! ## Acceptance -/

namespace Node

theorem callsFunction_renamed (hr : KeepsMeaning r) (ns : List Node) :
    callsFunction (renamedAll r ns) = callsFunction ns := by
  cases ns with
  | nil => rfl
  | cons n ns =>
    obtain ⟨kind, parts⟩ := n
    cases kind with
    | name id => exact congrArg Option.isSome (ofName?_renamed hr id)
    | _ => rfl

theorem refusal?_renamed (hr : KeepsMeaning r) (n : Node) : (n.renamed r).refusal? = n.refusal? := by
  obtain ⟨kind, parts⟩ := n
  cases kind with
  | name id =>
    show (if (r id).startsWith "__" then _ else _) = if id.startsWith "__" then _ else _
    rw [startsWith_renamed hr]
  | call named =>
    show (if (named || !callsFunction (renamedAll r parts)) = true then _ else _) =
      if (named || !callsFunction parts) = true then _ else _
    rw [callsFunction_renamed hr]
  | _ => rfl

mutual

theorem Accepted.renamed (hr : KeepsMeaning r) : ∀ {n : Node}, n.Accepted → (n.renamed r).Accepted
  | .mk kind parts, h => by
    rw [Accepted] at h
    rw [Node.renamed, Accepted, ← Node.renamed, refusal?_renamed hr]
    exact ⟨h.1, AllAccepted.renamed hr h.2⟩

theorem AllAccepted.renamed (hr : KeepsMeaning r) : ∀ {ns : List Node}, AllAccepted ns →
    AllAccepted (renamedAll r ns)
  | [], _ => by
    rw [renamedAll, AllAccepted]
    trivial
  | n :: ns, h => by
    rw [AllAccepted] at h
    rw [renamedAll, AllAccepted]
    exact ⟨Accepted.renamed hr h.1, AllAccepted.renamed hr h.2⟩

end

end Node

theorem IsAccepted.renamed (hr : KeepsMeaning r) {ts : List Token} (h : IsAccepted ts) :
    IsAccepted (ts.map (Token.renamed r)) := by
  obtain ⟨x, hread, hrefused⟩ := h
  have haccepted := (Node.firstRefused_eq_none x).mp hrefused
  exact ⟨_, readAll?_renamed hr hread haccepted.plain,
    (Node.firstRefused_eq_none _).mpr (haccepted.renamed hr)⟩

/-! ## Meanings -/

namespace Meaning

theorem unary_renamed (o : Operator) (x : Formula) :
    unary o (x.renamed r) = (unary o x).map (renamed r) := by
  cases o <;> rfl

theorem binary_renamed (x : Formula) (o : Operator) (y : Formula) :
    binary (x.renamed r) o (y.renamed r) = (binary x o y).map (renamed r) := by
  cases o <;> rfl

theorem call_renamed (f : Fn) (ms : List Meaning) :
    call f (ms.map (renamed r)) = (call f ms).map (renamed r) := by
  rcases ms with _ | ⟨m₁, _ | ⟨m₂, _ | ⟨m₃, ms⟩⟩⟩
  · rfl
  · cases m₁ with
    | value x =>
      show (if f.takes 1 then _ else _) = (if f.takes 1 then _ else _ : Option Meaning).map _
      split <;> rfl
    | _ => rfl
  · cases m₁ with
    | value x =>
      cases m₂ with
      | value y =>
        show (if f.takes 2 then _ else _) = (if f.takes 2 then _ else _ : Option Meaning).map _
        split <;> rfl
      | _ => rfl
    | _ => cases m₂ <;> rfl
  · cases m₁ <;> cases m₂ <;> rfl

theorem ofParts_renamed (hr : KeepsMeaning r) (kind : NodeKind) (ms : List Meaning) :
    ofParts (kind.renamed r) (ms.map (renamed r)) = (ofParts kind ms).map (renamed r) := by
  cases kind with
  | name id => exact congrArg some (ofName_renamed hr id)
  | unary =>
    rcases ms with _ | ⟨m₁, _ | ⟨m₂, _ | ⟨m₃, ms⟩⟩⟩
    · rfl
    · cases m₁ <;> rfl
    · cases m₁ with
      | operator o =>
        cases m₂ with
        | value x => exact unary_renamed o x
        | _ => rfl
      | _ => rfl
    · cases m₁ <;> cases m₂ <;> rfl
  | binary =>
    rcases ms with _ | ⟨m₁, _ | ⟨m₂, _ | ⟨m₃, _ | ⟨m₄, ms⟩⟩⟩⟩
    · rfl
    · cases m₁ <;> rfl
    · cases m₁ <;> cases m₂ <;> rfl
    · cases m₁ with
      | value x =>
        cases m₂ with
        | operator o =>
          cases m₃ with
          | value y => exact binary_renamed x o y
          | _ => rfl
        | _ => rfl
      | _ => rfl
    · cases m₁ <;> cases m₂ <;> cases m₃ <;> rfl
  | call named =>
    cases named with
    | true => rfl
    | false =>
      cases ms with
      | nil => rfl
      | cons m ms =>
        cases m with
        | function f => exact call_renamed f ms
        | _ => rfl
  | _ => rfl

end Meaning

mutual

/-- A tree with other names means what the tree means, with other variables. -/
theorem Node.meaning?_renamed (hr : KeepsMeaning r) : ∀ n : Node,
    (n.renamed r).meaning? = n.meaning?.map (Meaning.renamed r)
  | .mk kind parts => by
    rw [Node.renamed, Node.meaning?, Node.meaning?, Node.meanings?_renamed hr parts]
    cases Node.meanings? parts with
    | none => rfl
    | some ms => exact Meaning.ofParts_renamed hr kind ms

theorem Node.meanings?_renamed (hr : KeepsMeaning r) : ∀ ns : List Node,
    Node.meanings? (Node.renamedAll r ns) = (Node.meanings? ns).map (List.map (Meaning.renamed r))
  | [] => rfl
  | n :: ns => by
    rw [Node.renamedAll, Node.meanings?, Node.meanings?, Node.meaning?_renamed hr n,
      Node.meanings?_renamed hr ns]
    cases n.meaning? <;> cases Node.meanings? ns <;> rfl

end

end

end QuantumGates
