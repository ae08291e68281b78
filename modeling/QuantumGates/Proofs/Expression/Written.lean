-- Texts put together from the texts of expressions. An expression becomes an operand when it is put
-- in brackets, and two operands with a sign between them are an expression with the node of the
-- sign over their two trees; so are a minus before an operand and the call of a function. Each
-- text is read twice, and both readings are followed here.
import QuantumGates.Proofs.Expression.Operations
import QuantumGates.Proofs.Expression.Separation

namespace QuantumGates

/-! ## Texts around texts -/

theorem toList_brackets (s : String) : ("(" ++ s ++ ")").toList = '(' :: s.toList ++ [')'] := by
  simp

theorem toList_joined (s sign u : String) :
    ("(" ++ s ++ " " ++ sign ++ " " ++ u ++ ")").toList =
      '(' :: (s.toList ++ ' ' :: (sign.toList ++ ' ' :: u.toList)) ++ [')'] := by
  simp

theorem toList_negated (s : String) :
    ("(-" ++ s ++ ")").toList = '(' :: ('-' :: s.toList) ++ [')'] := by
  simp

theorem toList_call (name s : String) :
    (name ++ "(" ++ s ++ ")").toList = name.toList ++ '(' :: (s.toList ++ [')']) := by
  simp

theorem toList_atan2 (s u : String) :
    ("atan2(" ++ s ++ ", " ++ u ++ ")").toList =
      "atan2".toList ++ '(' :: ((s.toList ++ ',' :: ' ' :: u.toList) ++ [')']) := by
  simp

/-! ## Written trees -/

/-- The text is plain and `reads` says what its words are. The reading that takes a caret for
exclusive or has a tree of arithmetic, and the one that takes it for a power has the tree `x`,
which stands for a value. -/
structure Written (reads : List Token → Node → Prop) (s : List Char) (x : Node) : Prop where
  plain : IsPlainText s
  readings : ∃ ts c f, Lexes s ts ∧ reads ts c ∧ c.Accepted ∧
    reads (ts.map Token.caretAsPower) x ∧ x.meaning? = some (.value f)

section

variable {s u : List Char} {x y : Node}

theorem Written.expresses (h : Written Operand s x) : Written Expresses s x := by
  obtain ⟨ts, c, f, hs, hc, haccepted, hx, hf⟩ := h.readings
  exact ⟨h.plain, ts, c, f, hs, hc.expresses, haccepted, hx.expresses, hf⟩

/-- A text in brackets is an operand with the same tree. -/
theorem Written.brackets (h : Written Expresses s x) : Written Operand ('(' :: s ++ [')']) x := by
  obtain ⟨ts, c, f, hs, hc, haccepted, hx, hf⟩ := h.readings
  have hplain : IsPlainText ('(' :: s ++ [')']) := by
    have hopen : IsPlainText ['('] := isPlainText_of_all rfl
    have hclose : IsPlainText [')'] := isPlainText_of_all rfl
    exact (hopen.append h.plain).append hclose
  have hwords : Lexes ('(' :: s ++ [')']) (.sign .openRound :: ts ++ [.sign .closeRound]) :=
    .word rfl rfl (hs.append (.word rfl rfl .nil) rfl)
  refine ⟨hplain, _, c, f, hwords, hc.brackets haccepted.plain, haccepted, ?_, hf⟩
  rw [List.map_append, List.map_cons]
  exact hx.brackets (Node.plain_of_meaning? hf)

/-- A text that is judged to be an operand is one. -/
theorem Written.operand {text : String} (h : Written Expresses text.toList x)
    (hatomic : isAtomic text = true) : Written Operand text.toList x := by
  obtain ⟨ts, c, f, hs, hc, haccepted, hx, hf⟩ := h.readings
  have hwords := isAtomicWords_of_isAtomic hs h.plain hatomic
  refine ⟨h.plain, ts, c, f, hs, hc.operand haccepted.plain hwords, haccepted, ?_, hf⟩
  refine hx.operand (Node.plain_of_meaning? hf) ?_
  rwa [isAtomicWords_caretAsPower]

/-- An expression as an operand of a longer one. -/
theorem Written.bracketed {text : String} (h : Written Expresses text.toList x) :
    Written Operand (if isAtomic text then text else "(" ++ text ++ ")").toList x := by
  split
  · rename_i hatomic
    exact h.operand hatomic
  · rw [toList_brackets]
    exact h.brackets

/-! ## Signs -/

/-- The text is the spelling of the sign `g`, which stands between two operands for the operator
`o`. -/
structure Joins (sign : String) (g : Sign) (o : Operator) : Prop where
  plain : IsPlainText sign.toList
  word : ∀ r, takeToken? (sign.toList ++ ' ' :: r) = some (.sign g, ' ' :: r)
  arithmetic : (Token.sign g).isPlain = true
  noCaret : (Token.sign g).caretAsPower = .sign g
  reads : ∀ {ts us : List Token} {x y : Node}, Operand ts x → Operand us y →
    Expresses (ts ++ .sign g :: us) (.mk .binary [x, .leaf (.operator o), y])
  means : ∀ f f', ∃ f'', Meaning.binary f o f' = some (.value f'')

theorem joins_plus : Joins "+" .plus .add :=
  ⟨isPlainText_of_all rfl, fun _ => rfl, rfl, rfl,
    fun h h' => h.join h' (k := 8) (Nat.le_refl 8) rfl rfl (by decide), fun _ _ => ⟨_, rfl⟩⟩

theorem joins_minus : Joins "-" .minus .sub :=
  ⟨isPlainText_of_all rfl, fun _ => rfl, rfl, rfl,
    fun h h' => h.join h' (k := 8) (Nat.le_refl 8) rfl rfl (by decide), fun _ _ => ⟨_, rfl⟩⟩

theorem joins_star : Joins "*" .star .mul :=
  ⟨isPlainText_of_all rfl, fun _ => rfl, rfl, rfl,
    fun h h' => h.join h' (k := 9) (by decide) rfl rfl (by decide), fun _ _ => ⟨_, rfl⟩⟩

theorem joins_slash : Joins "/" .slash .div :=
  ⟨isPlainText_of_all rfl, fun _ => rfl, rfl, rfl,
    fun h h' => h.join h' (k := 9) (by decide) rfl rfl (by decide), fun _ _ => ⟨_, rfl⟩⟩

theorem joins_power : Joins "**" .power .pow :=
  ⟨isPlainText_of_all rfl, fun _ => rfl, rfl, rfl, fun h h' => h.raise h',
    fun _ _ => ⟨_, rfl⟩⟩

theorem accepted_binary {c c' : Node} (o : Operator) (h : c.Accepted) (h' : c'.Accepted) :
    (Node.mk .binary [c, .leaf (.operator o), c']).Accepted :=
  (Node.accepted_iff _).mpr ⟨rfl, h, (Node.accepted_iff _).mpr ⟨rfl, trivial⟩, h', trivial⟩

/-- Two operands with a sign between them have the node of the sign over their trees. -/
theorem Written.join {sign : String} {g : Sign} {o : Operator} (hsign : Joins sign g o)
    (h : Written Operand s x) (h' : Written Operand u y) :
    Written Expresses (s ++ ' ' :: (sign.toList ++ ' ' :: u))
      (.mk .binary [x, .leaf (.operator o), y]) := by
  obtain ⟨ts, c, f, hs, hc, haccepted, hx, hf⟩ := h.readings
  obtain ⟨us, c', f', hu, hc', haccepted', hy, hf'⟩ := h'.readings
  obtain ⟨f'', hmeans⟩ := hsign.means f f'
  have hplain : IsPlainText (s ++ ' ' :: (sign.toList ++ ' ' :: u)) := by
    have hspace : IsPlainText [' '] := isPlainText_of_all rfl
    exact h.plain.append (hspace.append (hsign.plain.append (hspace.append h'.plain)))
  have hwords : Lexes (s ++ ' ' :: (sign.toList ++ ' ' :: u)) (ts ++ .sign g :: us) :=
    hs.append (.blank (.word (hsign.word u) hsign.arithmetic (.blank hu))) rfl
  refine ⟨hplain, _, _, f'', hwords, hsign.reads hc hc', accepted_binary o haccepted haccepted',
    ?_, ?_⟩
  · rw [List.map_append, List.map_cons, hsign.noCaret]
    exact hsign.reads hx hy
  · rw [Node.meaning?_mk, Node.meanings?_cons hf (Node.meanings?_cons rfl
      (Node.meanings?_cons hf' rfl))]
    exact hmeans

/-! ## A minus before an operand -/

/-- No sign of arithmetic begins with the second character of an arrow or of an assignment. -/
theorem isPlain_of_takeSymbol? {c : Char} {g : Sign} {rest : List Char} (hc : c = '>' ∨ c = '=')
    (h : takeSymbol? (c :: s) = some (g, rest)) : (Token.sign g).isPlain = false := by
  have hall : ∀ p ∈ signSpellings, p.1.toList.head? = some '>' ∨ p.1.toList.head? = some '=' →
      (Token.sign p.2).isPlain = false := by decide +kernel
  obtain ⟨p, hmem, rfl, hhead⟩ := exists_head_of_takeSymbol? h
  refine hall p hmem ?_
  rw [hhead]
  exact hc.imp (congrArg some) (congrArg some)

theorem not_foreign_of_lexes {c : Char} {ts : List Token} (h : Lexes (c :: s) ts) :
    ¬ (c = '>' ∨ c = '=') := by
  intro hc
  obtain ⟨hblank, hsign⟩ : c ≠ ' ' ∧ takeToken? (c :: s) =
      (takeSymbol? (c :: s)).map fun x => (.sign x.1, x.2) := by
    rcases hc with rfl | rfl
    · exact ⟨by decide, rfl⟩
    · exact ⟨by decide, rfl⟩
  obtain ⟨t, r, us, hword, hplain, -⟩ := h.exists_word hblank
  rw [hsign] at hword
  obtain ⟨⟨g, r'⟩, hg, heq⟩ := Option.map_eq_some_iff.mp hword
  cases heq
  rw [isPlain_of_takeSymbol? hc hg] at hplain
  cases hplain

theorem takeSymbol?_minus {c : Char} (hc : ¬ (c = '>' ∨ c = '=')) :
    takeSymbol? ('-' :: c :: s) = some (.minus, c :: s) := by
  obtain ⟨harrow, hassign⟩ := not_or.mp hc
  simp [takeSymbol?, signSpellings, afterStart?, Ne.symm harrow, Ne.symm hassign]

/-- A minus before words of arithmetic is a word of its own. -/
theorem takeToken?_minus {ts : List Token} (h : Lexes s ts) :
    takeToken? ('-' :: s) = some (.sign .minus, s) := by
  have hsign : takeToken? ('-' :: s) =
      (takeSymbol? ('-' :: s)).map fun x => (.sign x.1, x.2) := rfl
  rw [hsign]
  cases s with
  | nil => rfl
  | cons c r =>
    -- the sign would be a longer one only before a character that no word begins with
    rw [takeSymbol?_minus (not_foreign_of_lexes h)]
    rfl

theorem accepted_unary {c : Node} (o : Operator) (h : c.Accepted) :
    (Node.mk .unary [.leaf (.operator o), c]).Accepted :=
  (Node.accepted_iff _).mpr ⟨rfl, (Node.accepted_iff _).mpr ⟨rfl, trivial⟩, h, trivial⟩

/-- A minus before an operand negates its tree. -/
theorem Written.negate (h : Written Operand s x) :
    Written Expresses ('-' :: s) (.mk .unary [.leaf (.operator .negative), x]) := by
  obtain ⟨ts, c, f, hs, hc, haccepted, hx, hf⟩ := h.readings
  have hplain : IsPlainText ('-' :: s) := by
    have hminus : IsPlainText ['-'] := isPlainText_of_all rfl
    exact hminus.append h.plain
  refine ⟨hplain, .sign .minus :: ts, _, .negate f, .word (takeToken?_minus hs) rfl hs, hc.negate,
    accepted_unary .negative haccepted, ?_, ?_⟩
  · rw [List.map_cons]
    exact hx.negate
  · rw [Node.meaning?_mk, Node.meanings?_cons rfl (Node.meanings?_cons hf rfl)]
    rfl

/-! ## Calls -/

/-- The name is that of the function `f`, which takes a count of arguments. -/
structure Calls (name : String) (f : Fn) (count : ℕ) : Prop where
  plain : IsPlainText name.toList
  word : ∀ r, takeToken? (name.toList ++ '(' :: r) = some (.name name, '(' :: r)
  free : reservedWords.contains name = false
  function : Fn.ofName? name = some f
  single : name.startsWith "__" = false
  takes : f.takes count = true

theorem accepted_name {name : String} (h : name.startsWith "__" = false) :
    (Node.leaf (.name name)).Accepted := by
  refine (Node.accepted_iff _).mpr ⟨?_, trivial⟩
  show (if name.startsWith "__" then some "Name" else none) = none
  rw [h]
  rfl

theorem Calls.accepted {name : String} {f : Fn} {count : ℕ} {cs : List Node}
    (hname : Calls name f count) (hcs : Node.AllAccepted cs) :
    (Node.mk (.call false) (.leaf (.name name) :: cs)).Accepted := by
  have hcall : (Node.mk (.call false) (.leaf (.name name) :: cs)).refusal? = none := by
    show (if false || !(Fn.ofName? name).isSome then some "Call" else none) = none
    rw [hname.function]
    rfl
  exact (Node.accepted_iff _).mpr ⟨hcall, accepted_name hname.single, hcs⟩

theorem Calls.meaning? {name : String} {f : Fn} {count : ℕ} (hname : Calls name f count) :
    (Node.leaf (.name name)).meaning? = some (.function f) := by
  have hmeans : Meaning.ofName name = .function f := by
    unfold Meaning.ofName
    rw [hname.function]
  unfold Node.leaf
  rw [Node.meaning?_mk, Node.meanings?, Option.bind_some, ← hmeans]
  rfl

theorem Calls.lexes {name : String} {f : Fn} {count : ℕ} {ts : List Token}
    (hname : Calls name f count) (hs : Lexes s ts) :
    Lexes (name.toList ++ '(' :: (s ++ [')']))
      (.name name :: .sign .openRound :: ts ++ [.sign .closeRound]) :=
  .word (hname.word _) rfl (.word rfl rfl (hs.append (.word rfl rfl .nil) rfl))

theorem Calls.isPlainText {name : String} {f : Fn} {count : ℕ} (hname : Calls name f count)
    (hs : IsPlainText s) : IsPlainText (name.toList ++ '(' :: (s ++ [')'])) := by
  have hopen : IsPlainText ['('] := isPlainText_of_all rfl
  have hclose : IsPlainText [')'] := isPlainText_of_all rfl
  exact hname.plain.append (hopen.append (hs.append hclose))

/-- The call of a function on an expression. -/
theorem Written.call {name : String} {f : Fn} (hname : Calls name f 1)
    (h : Written Expresses s x) :
    Written Operand (name.toList ++ '(' :: (s ++ [')']))
      (.mk (.call false) [.leaf (.name name), x]) := by
  obtain ⟨ts, c, v, hs, hc, haccepted, hx, hv⟩ := h.readings
  refine ⟨hname.isPlainText h.plain, _, _, .call f v, hname.lexes hs, hc.call hname.free,
    hname.accepted ⟨haccepted, trivial⟩, ?_, ?_⟩
  · rw [List.map_append]
    exact hx.call hname.free
  · rw [Node.meaning?_mk, Node.meanings?_cons hname.meaning? (Node.meanings?_cons hv rfl)]
    show (if f.takes 1 then some (Meaning.value (.call f v)) else none) = _
    rw [hname.takes]
    rfl

/-- The call of a function on two expressions. -/
theorem Written.call₂ {name : String} {f : Fn} (hname : Calls name f 2)
    (h : Written Expresses s x) (h' : Written Expresses u y) :
    Written Operand (name.toList ++ '(' :: ((s ++ ',' :: ' ' :: u) ++ [')']))
      (.mk (.call false) [.leaf (.name name), x, y]) := by
  obtain ⟨ts, c, v, hs, hc, haccepted, hx, hv⟩ := h.readings
  obtain ⟨us, c', v', hu, hc', haccepted', hy, hv'⟩ := h'.readings
  have hplain : IsPlainText (s ++ ',' :: ' ' :: u) := by
    have hcomma : IsPlainText [',', ' '] := isPlainText_of_all rfl
    exact h.plain.append (hcomma.append h'.plain)
  have hwords : Lexes (s ++ ',' :: ' ' :: u) (ts ++ .sign .comma :: us) :=
    hs.append (.word rfl rfl (.blank hu)) rfl
  refine ⟨hname.isPlainText hplain, _, _, .call₂ f v v', hname.lexes hwords,
    hc.call₂ hname.free hc', hname.accepted ⟨haccepted, haccepted', trivial⟩, ?_, ?_⟩
  · have hcarets : (ts ++ .sign .comma :: us).map Token.caretAsPower =
        ts.map Token.caretAsPower ++ .sign .comma :: us.map Token.caretAsPower := List.map_append
    rw [List.map_append, List.map_cons, List.map_cons, hcarets]
    exact hx.call₂ hname.free hy
  · rw [Node.meaning?_mk, Node.meanings?_cons hname.meaning?
      (Node.meanings?_cons hv (Node.meanings?_cons hv' rfl))]
    show (if f.takes 2 then some (Meaning.value (.call₂ f v v')) else none) = _
    rw [hname.takes]
    rfl

theorem calls_atan2 : Calls "atan2" .atan2 2 :=
  ⟨isPlainText_of_all rfl, fun _ => rfl, rfl, rfl, by simp, rfl⟩

/-! ## Whole texts -/

/-- The tree of a text that is evaluated, its brackets nested without a limit. -/
def Node.ofText? (text : String) : Option Node := (tokensWithin? none text).bind Node.evaluated?

/-- The text has printable characters of ASCII and no comment, and it is read as a formula. -/
def IsPlainExpression (text : String) : Prop :=
  IsPlainText text.toList ∧ ∃ f, Formula.readWithin none text = .ok f

/-- A written text is a plain expression with its tree. -/
theorem Written.isPlainExpression {text : String} (h : Written Expresses text.toList x) :
    IsPlainExpression text ∧ Node.ofText? text = some x := by
  obtain ⟨ts, c, f, hs, hc, haccepted, hx, hf⟩ := h.readings
  have hwords := hs.tokensWithin? h.plain
  have htree : Node.evaluated? ts = some x := hx.readAll?
  refine ⟨⟨h.plain, f, ?_⟩, ?_⟩
  · exact Formula.readWithin_eq_ok_iff.mpr ⟨ts, c, x, hwords, hc.readAll?, haccepted, rfl, htree, hf⟩
  · unfold Node.ofText?
    rw [hwords, Option.bind_some, htree]

/-- The words of a plain expression, and the trees of its two readings. -/
theorem IsPlainExpression.words {text : String} (h : IsPlainExpression text) :
    ∃ ts c x f, tokensWithin? none text = some ts ∧ Lexes text.toList ts ∧ Expresses ts c ∧
      c.Accepted ∧ Expresses (ts.map Token.caretAsPower) x ∧ x.meaning? = some (.value f) ∧
        Node.evaluated? ts = some x := by
  obtain ⟨hplain, f, hread⟩ := h
  obtain ⟨ts, c, x, hwords, hc, haccepted, -, hx, hf⟩ := Formula.readWithin_eq_ok_iff.mp hread
  have hexpresses : Expresses ts c := expresses_of_readAll? hc haccepted.plain
  exact ⟨ts, c, x, f, hwords, lexes_of_tokensWithin? hplain hwords hexpresses.balanced.plain,
    hexpresses, haccepted, expresses_of_readAll? hx (Node.plain_of_meaning? hf), hf, hx⟩

/-- A plain expression has a tree, with which it is written. -/
theorem IsPlainExpression.written {text : String} (h : IsPlainExpression text) :
    ∃ x, Node.ofText? text = some x ∧ Written Expresses text.toList x := by
  obtain ⟨ts, c, x, f, hwords, hs, hc, haccepted, hx, hf, htree⟩ := h.words
  refine ⟨x, ?_, h.1, ts, c, f, hs, hc, haccepted, hx, hf⟩
  unfold Node.ofText?
  rw [hwords, Option.bind_some, htree]

/-- A text in brackets is a plain expression with the tree of what stands in them. -/
theorem Written.isPlainExpression_brackets {text : String} (h : Written Expresses s x)
    (htext : text.toList = '(' :: s ++ [')']) :
    IsPlainExpression text ∧ Node.ofText? text = some x := by
  have hwritten : Written Expresses text.toList x := by
    rw [htext]
    exact h.brackets.expresses
  exact hwritten.isPlainExpression

/-- A call is a plain expression with its tree. -/
theorem Written.isPlainExpression_call {text name : String}
    (htext : text.toList = name.toList ++ '(' :: (s ++ [')']))
    (h : Written Operand (name.toList ++ '(' :: (s ++ [')'])) x) :
    IsPlainExpression text ∧ Node.ofText? text = some x := by
  rw [← htext] at h
  exact h.expresses.isPlainExpression

end

end QuantumGates
