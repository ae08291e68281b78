-- The check of the trees. It asks each node by itself whether its kind is on a list; a call is asked
-- for what it calls, too. On the trees of the language this is the same as to be built by the
-- grammar of arithmetic, from numbers, names, operators and calls of known functions. A tree that
-- does not pass is told by the class of its first node that is not on the list.
import QuantumGates.Proofs.Expression.LanguageTrees
import QuantumGates.Proofs.Expression.LevelOrder

namespace QuantumGates

/-! ## The list of what is allowed -/

/-- The class of an operator. -/
def Operator.className : Operator → String
  | .add => "Add"
  | .sub => "Sub"
  | .mul => "Mult"
  | .div => "Div"
  | .pow => "Pow"
  | .xor => "BitXor"
  | .positive => "UAdd"
  | .negative => "USub"

namespace Node

/-- The class of a node. -/
def className : Node → String
  | mk (.name _) _ => "Name"
  | mk (.whole _) _ | mk (.decimal _) _ => "Constant"
  | mk .unary _ => "UnaryOp"
  | mk .binary _ => "BinOp"
  | mk (.operator o) _ => o.className
  | mk (.call _) _ => "Call"
  | mk (.other label) _ => label

/-- A node is on the list, whatever stands below it. Of a call it matters what is called and that
no argument is given by name. -/
inductive Allowed : Node → Prop
  | name {id : String} (parts : List Node) (hid : id.startsWith "__" = false) :
      Allowed (mk (.name id) parts)
  | whole (n : ℕ) (parts : List Node) : Allowed (mk (.whole n) parts)
  | decimal (d : Decimal) (parts : List Node) : Allowed (mk (.decimal d) parts)
  | unary (parts : List Node) : Allowed (mk .unary parts)
  | binary (parts : List Node) : Allowed (mk .binary parts)
  | operator (o : Operator) (parts : List Node) : Allowed (mk (.operator o) parts)
  | call {id : String} {f : Fn} (below args : List Node) (hf : Fn.ofName? id = some f) :
      Allowed (mk (.call false) (mk (.name id) below :: args))

theorem callsFunction_eq_true {ps : List Node} :
    callsFunction ps = true ↔
      ∃ id f below args, ps = mk (.name id) below :: args ∧ Fn.ofName? id = some f := by
  constructor
  · intro h
    cases ps with
    | nil => cases h
    | cons callee args =>
      obtain ⟨f, hf⟩ := Option.isSome_iff_exists.mp h
      obtain ⟨id, hid, hf⟩ := Option.bind_eq_some_iff.mp hf
      obtain ⟨kind, below⟩ := callee
      cases kind with
      | name id' =>
        cases hid
        exact ⟨_, f, below, args, rfl, hf⟩
      | _ => cases hid
  · rintro ⟨id, f, below, args, rfl, hf⟩
    exact Option.isSome_iff_exists.mpr ⟨f, hf⟩

theorem refusal?_eq_none {n : Node} : n.refusal? = none ↔ n.Allowed := by
  constructor
  · intro h
    obtain ⟨kind, parts⟩ := n
    cases kind with
    | name id =>
      refine .name parts ?_
      by_contra hid
      rw [Bool.not_eq_false] at hid
      cases (if_pos hid).symm.trans h
    | whole n => exact .whole n parts
    | decimal d => exact .decimal d parts
    | unary => exact .unary parts
    | binary => exact .binary parts
    | operator o => exact .operator o parts
    | call named =>
      by_cases hcall : (named || !callsFunction parts) = true
      · cases (if_pos hcall).symm.trans h
      · rw [Bool.or_eq_true, not_or, Bool.not_eq_true', Bool.not_eq_false, Bool.not_eq_true] at hcall
        obtain ⟨rfl, hcalls⟩ := hcall
        obtain ⟨id, f, below, args, rfl, hf⟩ := callsFunction_eq_true.mp hcalls
        exact .call below args hf
    | other label => cases h
  · intro h
    cases h with
    | name parts hid => exact if_neg (Bool.eq_false_iff.mp hid)
    | call below args hf =>
      have hcalls := callsFunction_eq_true.mpr ⟨_, _, below, args, rfl, hf⟩
      exact if_neg (by rw [hcalls]; decide)
    | _ => rfl

/-- A refused node is told by its class. -/
theorem refusal?_eq_some {n : Node} {label : String} :
    n.refusal? = some label ↔ ¬ n.Allowed ∧ label = n.className := by
  rw [← refusal?_eq_none]
  constructor
  · intro h
    refine ⟨by rw [h]; nofun, ?_⟩
    obtain ⟨kind, parts⟩ := n
    cases kind with
    | name id =>
      obtain ⟨-, h⟩ := Option.ite_none_right_eq_some.mp h
      exact (Option.some.inj h).symm
    | call named =>
      obtain ⟨-, h⟩ := Option.ite_none_right_eq_some.mp h
      exact (Option.some.inj h).symm
    | other label' => exact (Option.some.inj h).symm
    | _ => cases h
  · rintro ⟨hrefused, rfl⟩
    obtain ⟨kind, parts⟩ := n
    cases kind with
    | name id =>
      by_cases hid : id.startsWith "__" = true
      · exact if_pos hid
      · exact absurd (if_neg hid) hrefused
    | call named =>
      by_cases hcall : (named || !callsFunction parts) = true
      · exact if_pos hcall
      · exact absurd (if_neg hcall) hrefused
    | other label => rfl
    | _ => exact absurd rfl hrefused

/-! ## The grammar of arithmetic -/

/-- Arithmetic: numbers, names without two underscores before them, operators with their operands,
and calls of known functions by their names, with arguments by their places. -/
inductive IsArithmetic : Node → Prop
  | whole (n : ℕ) : IsArithmetic (leaf (.whole n))
  | decimal (d : Decimal) : IsArithmetic (leaf (.decimal d))
  | name {id : String} (hid : id.startsWith "__" = false) : IsArithmetic (leaf (.name id))
  | unary {s : Operator} {x : Node} (hs : s ∈ signOperators) (hx : IsArithmetic x) :
      IsArithmetic (mk .unary [leaf (.operator s), x])
  | binary {s : Operator} {l r : Node} (hs : s ∈ joiningOperators) (hl : IsArithmetic l)
      (hr : IsArithmetic r) : IsArithmetic (mk .binary [l, leaf (.operator s), r])
  | call {id : String} {f : Fn} {args : List Node} (hf : Fn.ofName? id = some f)
      (hargs : ∀ a ∈ args, IsArithmetic a) :
      IsArithmetic (mk (.call false) (leaf (.name id) :: args))

theorem allAccepted_iff_forall {ns : List Node} : AllAccepted ns ↔ ∀ n ∈ ns, n.Accepted := by
  induction ns with
  | nil => simp [AllAccepted]
  | cons n ns ih => rw [AllAccepted, ih, List.forall_mem_cons]

theorem accepted_mk (kind : NodeKind) (parts : List Node) :
    (mk kind parts).Accepted ↔ (mk kind parts).Allowed ∧ ∀ p ∈ parts, p.Accepted := by
  rw [Accepted, refusal?_eq_none, allAccepted_iff_forall]

theorem accepted_leaf (kind : NodeKind) : (leaf kind).Accepted ↔ (leaf kind).Allowed :=
  (accepted_mk kind []).trans (and_iff_left nofun)

theorem accepted_operator (o : Operator) : (leaf (.operator o)).Accepted :=
  (accepted_leaf _).mpr (.operator o [])

/-- No known function has a name that begins with two underscores. -/
theorem startsWith_of_function {id : String} {f : Fn} (h : Fn.ofName? id = some f) :
    id.startsWith "__" = false := by
  obtain ⟨l, r, hsplit, -⟩ := List.lookup_eq_some_iff.mp h
  have hmem : (id, f) ∈ functionNames := hsplit ▸ List.mem_append_right l (List.mem_cons_self ..)
  have hall : ∀ p ∈ functionNames, p.1.startsWith "__" = false := by decide +kernel
  exact hall _ hmem

/-- An accepted operator is one of those listed. -/
theorem IsOperator.of_accepted {os : List Operator} {o : Node} (h : IsOperator os o)
    (ho : o.Accepted) : ∃ s ∈ os, o = leaf (.operator s) := by
  rcases h with h | ⟨label, rfl⟩
  · exact h
  · cases (accepted_leaf _).mp ho

theorem IsArithmetic.accepted {n : Node} (h : n.IsArithmetic) : n.Accepted := by
  induction h with
  | whole n => exact (accepted_leaf _).mpr (.whole n [])
  | decimal d => exact (accepted_leaf _).mpr (.decimal d [])
  | name hid => exact (accepted_leaf _).mpr (.name [] hid)
  | unary hs hx ihx =>
    exact (accepted_mk _ _).mpr ⟨.unary _, by simp [accepted_operator, ihx]⟩
  | binary hs hl hr ihl ihr =>
    exact (accepted_mk _ _).mpr ⟨.binary _, by simp [accepted_operator, ihl, ihr]⟩
  | call hf hargs ihargs =>
    have hcallee := (accepted_leaf _).mpr (.name [] (startsWith_of_function hf))
    exact (accepted_mk _ _).mpr ⟨.call [] _ hf, List.forall_mem_cons.mpr ⟨hcallee, ihargs⟩⟩

/-- The accepted trees of the language are built by the grammar of arithmetic. -/
theorem IsExpression.isArithmetic {n : Node} (h : n.IsExpression) (hn : n.Accepted) :
    n.IsArithmetic := by
  induction h with
  | name id =>
    cases (accepted_leaf _).mp hn with
    | name _ hid => exact .name hid
  | whole n => exact .whole n
  | decimal d => exact .decimal d
  | unary ho hx ihx =>
    have hparts := ((accepted_mk _ _).mp hn).2
    obtain ⟨s, hs, rfl⟩ := ho.of_accepted (hparts _ (by simp))
    exact .unary hs (ihx (hparts _ (by simp)))
  | binary hl ho hr ihl ihr =>
    have hparts := ((accepted_mk _ _).mp hn).2
    obtain ⟨s, hs, rfl⟩ := ho.of_accepted (hparts _ (by simp))
    exact .binary hs (ihl (hparts _ (by simp))) (ihr (hparts _ (by simp)))
  | call named hcallee hargs ihcallee ihargs =>
    obtain ⟨hallowed, hparts⟩ := (accepted_mk _ _).mp hn
    cases hallowed with
    | call below args hf =>
      cases hcallee with
      | name id => exact .call hf fun a ha => ihargs a ha (hparts a (List.mem_cons_of_mem _ ha))
  | other label parts => cases ((accepted_mk _ _).mp hn).1

/-! ## The check -/

/-- The check of a tree of the language, as every tree that is read from words is one. It passes
just when the grammar of arithmetic builds the tree. If it does not, it names the class of the
first node that is not on the list: every node with fewer steps from the root, and every node with
as many steps that is further to the left, is on it. -/
theorem check_eq_grammar :
    (∀ ts x, Node.checked? ts = some x → x.IsExpression) ∧
    ∀ n : Node, n.IsExpression →
      (n.firstRefused = none ↔ n.IsArithmetic) ∧
      ∀ label, n.firstRefused = some label ↔
        ∃ place m, n.at? place = some m ∧ ¬ m.Allowed ∧ label = m.className ∧
          ∀ q m', n.at? q = some m' → Before q place → m'.Allowed := by
  refine ⟨fun ts x => isExpression_of_checked?, fun n hn => ⟨?_, fun label => ?_⟩⟩
  · rw [firstRefused_eq_none]
    exact ⟨hn.isArithmetic, IsArithmetic.accepted⟩
  · simp only [firstRefused_eq_some_iff, refusal?_eq_some, refusal?_eq_none, and_assoc]

/-- In the words a quoted text within the call of a known function stands before the call of an
unknown one, but it is further from the root; so the check names the call. -/
theorem check_of_quoted_before_call :
    let ts : List Token := [.name "sin", .sign .openRound, .quoted .plain, .sign .closeRound,
      .sign .plus, .name "f", .sign .openRound, .whole 1, .sign .closeRound]
    ∃ x, Node.checked? ts = some x ∧ x.IsExpression ∧ ¬ x.IsArithmetic ∧
      x.firstRefused = some "Call" ∧
      ∃ place m, x.at? place = some m ∧ ¬ m.Allowed ∧ "Call" = m.className ∧
        ∀ q m', x.at? q = some m' → Before q place → m'.Allowed := by
  intro ts
  let x : Node := mk .binary [mk (.call false) [leaf (.name "sin"), other "Constant" []],
    leaf (.operator .add), mk (.call false) [leaf (.name "f"), leaf (.whole 1)]]
  have hread : Node.checked? ts = some x := by rfl
  have hrefused : x.firstRefused = some "Call" := by decide +kernel
  obtain ⟨hexpression, hcheck⟩ := check_eq_grammar
  have hx := hexpression ts x hread
  obtain ⟨haccepted, hfirst⟩ := hcheck x hx
  refine ⟨x, hread, hx, fun h => ?_, hrefused, (hfirst "Call").mp hrefused⟩
  cases (haccepted.mpr h).symm.trans hrefused

end Node

end QuantumGates
