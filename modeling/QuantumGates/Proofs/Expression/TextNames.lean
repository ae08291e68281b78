-- The names of a text and the variables of its formula. Every variable was a name among the
-- words: the grammar of arithmetic puts a name into the tree only where it uses the word, and the
-- meaning of a tree has no variables but the names in it.
import QuantumGates.Proofs.Expression.Grammar
import QuantumGates.Proofs.Expression.Nesting

namespace QuantumGates

/-! ## Names in a tree -/

mutual

/-- A node of the tree is this name. -/
def Node.Mentions (name : String) : Node → Prop
  | .mk kind parts => kind = .name name ∨ Node.Mentioned name parts

/-- A node of one of the trees is this name. -/
def Node.Mentioned (name : String) : List Node → Prop
  | [] => False
  | n :: ns => n.Mentions name ∨ Node.Mentioned name ns

end

namespace Node

variable {name : String}

@[simp] theorem mentions_leaf_name (id : String) :
    (leaf (.name id)).Mentions name ↔ id = name := by
  simp [leaf, Mentions, Mentioned]

@[simp] theorem not_mentions_whole (n : ℕ) : ¬ (leaf (.whole n)).Mentions name := by
  simp [leaf, Mentions, Mentioned]

@[simp] theorem not_mentions_decimal (d : Decimal) : ¬ (leaf (.decimal d)).Mentions name := by
  simp [leaf, Mentions, Mentioned]

@[simp] theorem mentions_unary (o : Operator) (x : Node) :
    (mk .unary [leaf (.operator o), x]).Mentions name ↔ x.Mentions name := by
  simp [leaf, Mentions, Mentioned]

@[simp] theorem mentions_binary (l : Node) (o : Operator) (r : Node) :
    (mk .binary [l, leaf (.operator o), r]).Mentions name ↔
      l.Mentions name ∨ r.Mentions name := by
  simp [leaf, Mentions, Mentioned]

@[simp] theorem mentions_call (named : Bool) (f : Node) (xs : List Node) :
    (mk (.call named) (f :: xs)).Mentions name ↔ f.Mentions name ∨ Mentioned name xs := by
  simp [Mentions, Mentioned]

end Node

open Node

/-! ## Names that are derived -/

/-- What stands to the left of a goal has this name. -/
def Goal.Mentions (name : String) : Goal → Prop
  | .chainFrom _ left => left.Mentions name
  | .primaryFrom left => left.Mentions name
  | _ => False

section

variable {ts : List Token} {x : Node} {name : String}

theorem AtomWord.eq_name_of_mentions {t : Token} (h : AtomWord t x) (hname : x.Mentions name) :
    t = .name name := by
  cases h with
  | name => rw [(mentions_leaf_name _).mp hname]
  | whole => exact absurd hname (not_mentions_whole _)
  | decimal => exact absurd hname (not_mentions_decimal _)

mutual

/-- A name in a derived tree was to the left of the goal, or it is one of the words. -/
theorem Derives.mentions_or_mem : ∀ {g : Goal} {ts : List Token} {x : Node}, Derives g ts x →
    x.Mentions name → g.Mentions name ∨ Token.name name ∈ ts
  | _, _, _, .chain _ h h', hname =>
    .inr (List.mem_append.mpr ((h'.mentions_or_mem hname).imp_left fun hleft =>
      (h.mentions_or_mem hleft).resolve_left id))
  | _, _, _, .factor h, hname => h.mentions_or_mem hname
  | _, _, _, .chainEnd, hname => .inl hname
  | _, _, _, .join _ _ h h', hname => by
    rcases h'.mentions_or_mem hname with hjoined | hmem
    · rcases (mentions_binary _ _ _).mp hjoined with hleft | hright
      · exact .inl hleft
      · have hmem := (h.mentions_or_mem hright).resolve_left id
        exact .inr (List.mem_cons_of_mem _ (List.mem_append_left _ hmem))
    · exact .inr (List.mem_cons_of_mem _ (List.mem_append_right _ hmem))
  | _, _, _, .signed _ h, hname =>
    (h.mentions_or_mem ((mentions_unary _ _).mp hname)).imp_right (List.mem_cons_of_mem _)
  | _, _, _, .unsigned h, hname => h.mentions_or_mem hname
  | _, _, _, .base h, hname => h.mentions_or_mem hname
  | _, _, _, .raised h h', hname => by
    refine .inr ?_
    rcases (mentions_binary _ _ _).mp hname with hbase | hexponent
    · exact List.mem_append_left _ ((h.mentions_or_mem hbase).resolve_left id)
    · have hmem := (h'.mentions_or_mem hexponent).resolve_left id
      exact List.mem_append_right _ (List.mem_cons_of_mem _ hmem)
  | _, _, _, .word ht h, hname => by
    rcases h.mentions_or_mem hname with hword | hmem
    · rw [ht.eq_name_of_mentions hword]
      exact .inr List.mem_cons_self
    · exact .inr (List.mem_cons_of_mem _ hmem)
  | _, _, _, .bracket h h', hname => by
    refine .inr (List.mem_cons_of_mem _ ?_)
    rcases h'.mentions_or_mem hname with hinside | hmem
    · exact List.mem_append_left _ ((h.mentions_or_mem hinside).resolve_left id)
    · exact List.mem_append_right _ (List.mem_cons_of_mem _ hmem)
  | _, _, _, .primaryEnd, hname => .inl hname
  | _, _, _, .call h h', hname => by
    rcases h'.mentions_or_mem hname with hcall | hmem
    · rcases (mentions_call _ _ _).mp hcall with hcallee | hargument
      · exact .inl hcallee
      · exact .inr (List.mem_cons_of_mem _ (List.mem_append_left _ (h.mem_of_mentioned hargument)))
    · exact .inr (List.mem_cons_of_mem _
        (List.mem_append_right _ (List.mem_cons_of_mem _ hmem)))

theorem DerivesArguments.mem_of_mentioned : ∀ {ts : List Token} {xs : List Node},
    DerivesArguments ts xs → Mentioned name xs → Token.name name ∈ ts
  | _, _, .last h, hname => (h.mentions_or_mem (hname.resolve_right id)).resolve_left id
  | _, _, .cons h h', hname => by
    rcases hname with hfirst | hothers
    · exact List.mem_append_left _ ((h.mentions_or_mem hfirst).resolve_left id)
    · exact List.mem_append_right _ (List.mem_cons_of_mem _ (h'.mem_of_mentioned hothers))

end

end

/-! ## Variables of a formula -/

namespace Formula

theorem mem_namesFrom (met : List String) (f : Formula) (name : String) :
    name ∈ namesFrom met f ↔ name ∈ met ∨ name ∈ f.names := by
  unfold names
  induction f generalizing met with
  | var id =>
    simp only [namesFrom]
    split
    · rename_i hmet
      have hmem : id ∈ met := by simpa using hmet
      constructor
      · exact .inl
      · rintro (h | h)
        · exact h
        · simp only [List.contains_nil, Bool.false_eq_true, ↓reduceIte, List.nil_append,
            List.mem_singleton] at h
          exact h ▸ hmem
    · simp
  | negate x ih => exact ih met
  | binary o x y ihx ihy =>
    simp only [namesFrom]
    rw [ihy, ihx, ihy (namesFrom [] x), or_assoc]
  | call fn x ih => exact ih met
  | call₂ fn x y ihx ihy =>
    simp only [namesFrom]
    rw [ihy, ihx, ihy (namesFrom [] x), or_assoc]
  | _ => simp [namesFrom]

variable {f x y : Formula} {name : String}

@[simp] theorem mem_names_var (id : String) : name ∈ (var id).names ↔ name = id := by
  simp [names, namesFrom]

@[simp] theorem mem_names_binary (o : Dyadic) :
    name ∈ (binary o x y).names ↔ name ∈ x.names ∨ name ∈ y.names :=
  mem_namesFrom (namesFrom [] x) y name

@[simp] theorem mem_names_call₂ (fn : Fn) :
    name ∈ (call₂ fn x y).names ↔ name ∈ x.names ∨ name ∈ y.names :=
  mem_namesFrom (namesFrom [] x) y name

end Formula

/-- The formula of this meaning has this variable. -/
def Meaning.Mentions (name : String) : Meaning → Prop
  | .value x => name ∈ x.names
  | _ => False

namespace Meaning

variable {name : String} {m : Meaning} {ms : List Meaning}

/-- A name whose meaning has a variable stands for this variable. -/
theorem Mentions.of_ofName {id : String} (h : (ofName id).Mentions name) :
    id = name ∧ ofName name = value (.var name) := by
  have hvar : ofName id = value (.var id) := by
    unfold ofName at h
    split at h
    · exact h.elim
    · cases h
    · rename_i hfunction hconstant
      split at h
      · exact h.elim
      · rename_i hkind
        unfold ofName
        rw [hfunction, hconstant]
        exact if_neg hkind
  rw [hvar] at h
  obtain rfl := (Formula.mem_names_var id).mp h
  exact ⟨rfl, hvar⟩

/-- The variables of a meaning come from the meanings of the parts, or the node is the name. -/
theorem Mentions.of_ofParts {kind : NodeKind} (hm : ofParts kind ms = some m)
    (h : m.Mentions name) :
    kind = .name name ∧ ofName name = value (.var name) ∨ ∃ part ∈ ms, part.Mentions name := by
  unfold ofParts at hm
  split at hm
  · cases hm
    obtain ⟨rfl, hvar⟩ := h.of_ofName
    exact .inl ⟨rfl, hvar⟩
  · cases hm
    cases h
  · cases hm
    cases h
  · cases hm
    exact h.elim
  · rename_i o x
    refine .inr ⟨value x, by simp, ?_⟩
    cases o with
    | positive | negative =>
      cases hm
      exact h
    | _ => cases hm
  · rename_i x o y
    have hparts : name ∈ x.names ∨ name ∈ y.names := by
      cases o with
      | add | sub | mul | div | pow =>
        cases hm
        exact (Formula.mem_names_binary _).mp h
      | _ => cases hm
    refine .inr (hparts.elim (fun hx => ⟨value x, by simp, hx⟩) fun hy => ⟨value y, by simp, hy⟩)
  · rename_i fn xs
    refine .inr ?_
    unfold call at hm
    split at hm
    · rename_i x
      split at hm
      · cases hm
        exact ⟨value x, by simp, h⟩
      · cases hm
    · rename_i x y
      split at hm
      · cases hm
        exact ((Formula.mem_names_call₂ _).mp h).elim (fun hx => ⟨value x, by simp, hx⟩)
          fun hy => ⟨value y, by simp, hy⟩
      · cases hm
    · cases hm
  · cases hm

end Meaning

mutual

/-- A variable of the meaning of a tree is a name in the tree, and one that stands for a variable. -/
theorem Node.mentions_of_meaning? {name : String} {n : Node} {m : Meaning}
    (h : n.meaning? = some m) (hm : m.Mentions name) :
    n.Mentions name ∧ Meaning.ofName name = .value (.var name) := by
  cases n with
  | mk kind parts =>
    rw [meaning?_mk] at h
    rw [Node.Mentions]
    obtain ⟨ms, hms, hkind⟩ := Option.bind_eq_some_iff.mp h
    rcases hm.of_ofParts hkind with ⟨hkind, hvar⟩ | ⟨part, hpart, hm⟩
    · exact ⟨.inl hkind, hvar⟩
    · exact (Node.mentioned_of_meanings? hms hpart hm).imp_left .inr

theorem Node.mentioned_of_meanings? {name : String} {ns : List Node} {ms : List Meaning}
    {m : Meaning} (h : meanings? ns = some ms) (hmem : m ∈ ms) (hm : m.Mentions name) :
    Node.Mentioned name ns ∧ Meaning.ofName name = .value (.var name) := by
  cases ns with
  | nil =>
    cases h
    cases hmem
  | cons n ns =>
    rw [meanings?] at h
    rw [Node.Mentioned]
    cases hn : n.meaning? with
    | none =>
      rw [hn] at h
      cases h
    | some first =>
      cases hns : meanings? ns with
      | none =>
        rw [hn, hns] at h
        cases h
      | some others =>
        rw [hn, hns] at h
        cases h
        rcases List.mem_cons.mp hmem with rfl | hmem
        · exact (Node.mentions_of_meaning? hn hm).imp_left .inl
        · exact (Node.mentioned_of_meanings? hns hmem hm).imp_left .inr

end

/-! ## Names of a text -/

/-- The name that a word is. -/
def Token.name? : Token → Option String
  | .name id => some id
  | _ => none

end QuantumGates
