-- Operands joined by an operator, raised to a power, negated, or handed to a function. Each of
-- these is an expression again, and its tree is the node of the operation over the trees of the
-- operands: an operand is read by the innermost rules, so no operator beside it takes it apart.
import QuantumGates.Proofs.Expression.Operands

namespace QuantumGates

open Node

section

variable {n k : ℕ} {ts us suffix rest : List Token} {x y : Node}

/-! ## Climbing the chain -/

theorem read_pos {g : Goal} (h : read n g ts = some (x, rest)) : ∃ m, n = m + 1 := by
  cases n with
  | zero => cases h
  | succ n => exact ⟨n, rfl⟩

/-- What a chain of some strength reads, all weaker chains read, if no weaker operator follows. -/
theorem read_chain_weaker {d : ℕ} (hd : k + d ≤ 10) (hopens : opensExpression ts = true)
    (h : read n (.chain (k + d)) ts = some (x, rest))
    (hjoin : ∀ j, k ≤ j → j < k + d → joinAt? j rest = none) :
    read (n + d) (.chain k) ts = some (x, rest) := by
  induction d generalizing k with
  | zero => exact h
  | succ d ih =>
    have hnext : read (n + d) (.chain (k + 1)) ts = some (x, rest) := by
      refine ih (by omega) ?_ fun j hj hj' => hjoin j (by omega) (by omega)
      rwa [Nat.add_right_comm, Nat.add_assoc]
    rw [← Nat.add_assoc]
    by_cases h2 : k = 2
    · subst h2
      exact read_chain_two_of (afterWord?_of_opens hopens (by decide)) hnext
    · obtain ⟨m, hm⟩ := read_pos hnext
      refine read_chain_of h2 (by omega) hnext ?_
      rw [hm]
      exact read_chainFrom_of_none (hjoin k (Nat.le_refl k) (by omega))

/-- No operator stands where an expression ends. -/
theorem joinAt?_of_endsExpression (h : endsExpression suffix = true) (j : ℕ) :
    joinAt? j suffix = none := by
  have hnil : joinAt? j [] = none := by
    unfold joinAt?
    by_cases h0 : j = 0
    · rw [if_pos h0]
      rfl
    by_cases h1 : j = 1
    · rw [if_neg h0, if_pos h1]
      rfl
    by_cases h3 : j = 3
    · rw [if_neg h0, if_neg h1, if_pos h3]
      rfl
    · rw [if_neg h0, if_neg h1, if_neg h3]
  exact joinAt?_append hnil (beginsWithSign_of_endsOperand (endsOperand_of_endsExpression h))
    fun _ => h

/-- A sign that joins with one strength joins with no greater one. -/
theorem joinAt?_stronger {j : ℕ} {s : Sign} {r : List Token} (hk : 8 ≤ k) (hj : k < j)
    (hs : (joiningSigns k).contains s = true) : joinAt? j (.sign s :: r) = none := by
  have hno : (joiningSigns j).contains s = false := by
    match k, j, hk, hj, hs with
    | 8, 9, _, _, hs => cases s <;> first | rfl | cases hs
    | 8, _ + 10, _, _, _ => rfl
    | 9, _ + 10, _, _, _ => rfl
    | _ + 10, _, _, _, hs => cases hs
  unfold joinAt?
  rw [if_neg (by omega), if_neg (by omega), if_neg (by omega)]
  exact if_neg (by rw [hno]; simp)

/-- What a chain reads before the end of an expression is the expression. -/
theorem read_expression_of_chain (hk : k ≤ 10) (hopens : opensExpression ts = true)
    (h : read n (.chain k) ts = some (x, suffix)) (hend : endsExpression suffix = true) :
    read (n + k + 1) .expression ts = some (x, suffix) := by
  refine read_expression_of (afterWord?_of_opens hopens (by decide)) ?_ ?_
  · refine read_chain_weaker (by omega) hopens ?_ fun j _ _ => joinAt?_of_endsExpression hend j
    rwa [Nat.zero_add]
  · rcases endsExpression_cases hend with rfl | ⟨r, rfl⟩ | ⟨r, rfl⟩
    · rfl
    · rfl
    · rfl

theorem read_expression_of_factor (hopens : opensExpression ts = true)
    (h : read n .factor ts = some (x, suffix)) (hend : endsExpression suffix = true) :
    read (n + 12) .expression ts = some (x, suffix) :=
  read_expression_of_chain (n := n + 1) (Nat.le_refl 10) hopens (read_chain_ten_of h) hend

/-! ## Operands in their places -/

/-- An operand before which nothing and after which no power stands is a factor. -/
theorem Operand.factor (h : Operand ts x) (hn : 24 * ts.length + 36 ≤ n)
    (hend : endsOperand suffix = true) (hpower : afterSign? .power suffix = none) :
    read n .factor (ts ++ suffix) = some (x, suffix) := by
  obtain ⟨m, rfl⟩ : ∃ m, n = m + 2 := ⟨n - 2, by omega⟩
  have hopens := opensExpression_append (opensExpression_of_opensOperand h.opens) suffix
  exact read_factor_of_none (fun s r heq => unaryNode_of_opensOperand h.opens heq)
    (read_power_of_none (afterWord?_of_opens hopens (by decide)) (h.reads m suffix (by omega) hend)
      hpower)

/-- An operand is a chain of any strength before an operator that is weaker. -/
theorem Operand.chain (h : Operand ts x) (hk : k ≤ 10) (hn : 24 * ts.length + 47 ≤ n + k)
    (hend : endsOperand suffix = true) (hpower : afterSign? .power suffix = none)
    (hjoin : ∀ j, k ≤ j → joinAt? j suffix = none) :
    read n (.chain k) (ts ++ suffix) = some (x, suffix) := by
  obtain ⟨d, hd⟩ : ∃ d, k + d = 10 := ⟨10 - k, by omega⟩
  obtain ⟨m, rfl⟩ : ∃ m, n = m + 1 + d := ⟨n - 1 - d, by omega⟩
  have hopens := opensExpression_append (opensExpression_of_opensOperand h.opens) suffix
  refine read_chain_weaker (by omega) hopens ?_ fun j hj _ => hjoin j hj
  rw [hd]
  exact read_chain_ten_of (h.factor (by omega) hend hpower)

/-- Two operands with an operator between them. -/
theorem Operand.join {s : Sign} {o : Operator} (h : Operand ts x) (h' : Operand us y)
    (hk : 8 ≤ k) (hs : (joiningSigns k).contains s = true)
    (ho : operatorNode s = some (.leaf (.operator o))) (hpower : s ≠ .power) :
    Expresses (ts ++ .sign s :: us) (.mk .binary [x, .leaf (.operator o), y]) := by
  have hk9 : k ≤ 9 := by
    rcases Nat.lt_or_ge k 10 with hlt | hge
    · exact Nat.le_of_lt_succ hlt
    · obtain ⟨i, rfl⟩ : ∃ i, k = i + 10 := ⟨k - 10, by omega⟩
      cases hs
  have hsign : (Token.sign s).isPlain = true ∧ s ≠ .openRound ∧ s ≠ .closeRound ∧
      endsOperand (.sign s :: us) = true := by
    cases s <;> cases ho <;> exact ⟨rfl, by simp, by simp, rfl⟩
  have hopens := opensExpression_of_opensOperand h.opens
  refine ⟨opensExpression_append hopens _, h.balanced.append (h'.balanced.cons hsign.1
    (by simpa using hsign.2.1) (by simpa using hsign.2.2.1)), fun m suffix hm hend => ?_⟩
  rw [List.length_append, List.length_cons] at hm
  obtain ⟨p, rfl⟩ : ∃ p, m = p + 3 + k + 1 := ⟨m - 4 - k, by omega⟩
  rw [List.append_assoc, List.cons_append]
  refine read_expression_of_chain (by omega) (opensExpression_append hopens _) ?_ hend
  have hleft : read (p + 2) (.chain (k + 1)) (ts ++ .sign s :: (us ++ suffix)) =
      some (x, .sign s :: (us ++ suffix)) := by
    refine h.chain (by omega) (by omega) hsign.2.2.2 (if_neg hpower) fun j hj => ?_
    exact joinAt?_stronger hk hj hs
  have hright : read (p + 1) (.chain (k + 1)) (us ++ suffix) = some (y, suffix) := by
    refine h'.chain (by omega) (by omega) (endsOperand_of_endsExpression hend)
      (afterSign?_of_endsExpression hend (by decide) (by decide)) fun j _ => ?_
    exact joinAt?_of_endsExpression hend j
  refine read_chain_of (by omega) (by omega) hleft ?_
  exact read_chainFrom_of_join (joinAt?_sign (by omega) (by omega) (by omega) hs ho _) hright
    (read_chainFrom_of_none (joinAt?_of_endsExpression hend k))

/-- An operand raised to another. -/
theorem Operand.raise (h : Operand ts x) (h' : Operand us y) :
    Expresses (ts ++ .sign .power :: us) (.mk .binary [x, .leaf (.operator .pow), y]) := by
  have hopens := opensExpression_of_opensOperand h.opens
  refine ⟨opensExpression_append hopens _, h.balanced.append (h'.balanced.cons rfl (by simp)
    (by simp)), fun m suffix hm hend => ?_⟩
  rw [List.length_append, List.length_cons] at hm
  obtain ⟨p, rfl⟩ : ∃ p, m = p + 2 + 12 := ⟨m - 14, by omega⟩
  rw [List.append_assoc, List.cons_append]
  refine read_expression_of_factor (opensExpression_append hopens _) ?_ hend
  refine read_factor_of_none (fun s r heq => unaryNode_of_opensOperand h.opens heq) ?_
  refine read_power_of_power (afterWord?_of_opens (opensExpression_append hopens _) (by decide))
    (h.reads p _ (by omega) rfl) ?_
  exact h'.factor (by omega) (endsOperand_of_endsExpression hend)
    (afterSign?_of_endsExpression hend (by decide) (by decide))

/-- An operand with a minus before it. -/
theorem Operand.negate (h : Operand ts x) :
    Expresses (.sign .minus :: ts) (.mk .unary [.leaf (.operator .negative), x]) := by
  refine ⟨rfl, h.balanced.cons rfl (by simp) (by simp), fun m suffix hm hend => ?_⟩
  rw [List.length_cons] at hm
  obtain ⟨p, rfl⟩ : ∃ p, m = p + 1 + 12 := ⟨m - 13, by omega⟩
  refine read_expression_of_factor rfl ?_ hend
  exact read_factor_of_sign rfl (h.factor (by omega) (endsOperand_of_endsExpression hend)
    (afterSign?_of_endsExpression hend (by decide) (by decide)))

/-- An operand is an expression. -/
theorem Operand.expresses (h : Operand ts x) : Expresses ts x := by
  refine ⟨opensExpression_of_opensOperand h.opens, h.balanced, fun m suffix hm hend => ?_⟩
  obtain ⟨p, rfl⟩ : ∃ p, m = p + 12 := ⟨m - 12, by omega⟩
  refine read_expression_of_factor (opensExpression_append
    (opensExpression_of_opensOperand h.opens) _) ?_ hend
  exact h.factor (by omega) (endsOperand_of_endsExpression hend)
    (afterSign?_of_endsExpression hend (by decide) (by decide))

/-! ## Calls -/

theorem startsPositional_of_expresses (h : Expresses ts x) (hend : endsExpression suffix = true) :
    startsPositional (ts ++ suffix) = true := by
  have hpos := startsPositional_of_opens h.opens h.balanced.plain
  match ts, h.opens with
  | [t], hopens =>
    rcases endsExpression_cases hend with rfl | ⟨r, rfl⟩ | ⟨r, rfl⟩
    · exact hpos
    · cases t with
      | sign s => cases s <;> first | rfl | cases hopens
      | _ => rfl
    · cases t with
      | sign s => cases s <;> first | rfl | cases hopens
      | _ => rfl
  | t :: u :: r, _ => exact startsPositional_append hpos (by simp)

/-- An expression is read as an argument, whatever arguments follow. -/
theorem Expresses.argument {begun : Bool} {r : List Token} (h : Expresses ts x)
    (hn : 24 * (ts.length + 2) < n)
    (hsuffix : suffix = .sign .closeRound :: r ∨ suffix = .sign .comma :: r) :
    readArguments (read n) begun false false (k + 1) (ts ++ suffix) =
      argumentsAfter (read n) k false false (some x) suffix := by
  have hend : endsExpression suffix = true ∧ afterFor? suffix = none := by
    rcases hsuffix with rfl | rfl
    · exact ⟨rfl, rfl⟩
    · exact ⟨rfl, rfl⟩
  obtain ⟨m, rfl⟩ : ∃ m, n = m + 1 := ⟨n - 1, by omega⟩
  have hopens := opensExpression_append h.opens suffix
  have hdef := startsDefinition_append (startsDefinition_of_plain h.balanced.plain)
    fun _ => hend.1
  exact readArguments_positional (afterSign?_of_opens hopens (by decide))
    (startsPositional_of_expresses h hend.1)
    (read_named_of hdef (h.reads m suffix (by omega) hend.1)) (.inr hend.2)

/-- A name and arguments in brackets that are read up to their end are an operand. -/
theorem operand_call {f : String} {xs : List Node} (hf : reservedWords.contains f = false)
    (hbal : Balanced ts)
    (hargs : ∀ m k suffix, 24 * (ts.length + 3) ≤ m → ts.length < k →
      readArguments (read m) false false false k (ts ++ .sign .closeRound :: suffix) =
        some (xs, false, suffix)) :
    Operand (.name f :: .sign .openRound :: ts ++ [.sign .closeRound])
      (.mk (.call false) (.leaf (.name f) :: xs)) := by
  refine ⟨?_, hbal.brackets.cons rfl (by simp) (by simp), fun m suffix hm hend => ?_⟩
  · show (!reservedWords.contains f) = true
    rw [hf]
    rfl
  · simp only [List.cons_append, List.length_cons, List.length_append, List.length_nil] at hm
    obtain ⟨p, rfl⟩ : ∃ p, m = p + 3 := ⟨m - 3, by omega⟩
    have hread := hargs (p + 1) ((ts ++ .sign .closeRound :: suffix).length + 1) suffix (by omega)
      (by rw [List.length_append, List.length_cons]; omega)
    simp only [List.cons_append, List.append_assoc, List.nil_append]
    refine read_primary_of (readAtom_name hf) (read_primaryFrom_of_call hread ?_)
    exact readPrimaryFrom_of_ends (endsPrimary_of_endsOperand hend)

/-- A function of one expression. -/
theorem Expresses.call {f : String} (hf : reservedWords.contains f = false) (h : Expresses ts x) :
    Operand (.name f :: .sign .openRound :: ts ++ [.sign .closeRound])
      (.mk (.call false) [.leaf (.name f), x]) := by
  refine operand_call hf h.balanced fun m k suffix hm hk => ?_
  obtain ⟨k, rfl⟩ : ∃ i, k = i + 1 := ⟨k - 1, by omega⟩
  rw [h.argument (by omega) (.inl rfl)]
  exact argumentsAfter_close x suffix

/-- A function of two expressions. -/
theorem Expresses.call₂ {f : String} (hf : reservedWords.contains f = false)
    (h : Expresses ts x) (h' : Expresses us y) :
    Operand (.name f :: .sign .openRound :: (ts ++ .sign .comma :: us) ++ [.sign .closeRound])
      (.mk (.call false) [.leaf (.name f), x, y]) := by
  refine operand_call hf (h.balanced.append (h'.balanced.cons rfl (by simp) (by simp)))
    fun m k suffix hm hk => ?_
  rw [List.length_append, List.length_cons] at hm hk
  obtain ⟨k, rfl⟩ : ∃ i, k = i + 2 := ⟨k - 2, by omega⟩
  rw [List.append_assoc, List.cons_append, h.argument (by omega) (.inr rfl)]
  refine argumentsAfter_comma ?_
  rw [h'.argument (by omega) (.inl rfl)]
  exact argumentsAfter_close y suffix

end

end QuantumGates
