-- Texts that are no expressions. Arithmetic puts a text into a longer one without reading it. If the
-- text keeps together, the longer text is no expression either, so what was malformed at first is
-- found out when the result is evaluated.
import QuantumGates.Proofs.Expression.Computation
import QuantumGates.Proofs.Expression.Dependence
import QuantumGates.Proofs.Expression.Parts

namespace QuantumGates

/-- No table of variables gives the parameter a value. -/
def Param.HasNoValue (p : Param Float) : Prop :=
  ∀ (b : Bindings Float) (x : Float), p.value b.evaluate ≠ .ok x

/-- The parameter is a number, or its text has printable characters of ASCII and no comment. -/
def Param.HasPlainText : Param Float → Prop
  | literal _ => True
  | expression s => IsPlainText s.toList

/-- The operation writes a call of a function around its operand. -/
def Unary.isCall : Unary → Bool
  | neg | recip => false
  | _ => true

/-- The parameter that an operation writes, unless a number makes it leave itself out. -/
def Binary.written (o : Binary) (p q : Param Float) : Param Float :=
  match o with
  | add => .joined "+" p q
  | sub => .joined "-" p q
  | mul => .joined "*" p q
  | div => .joined "/" p q
  | pow => .joined "**" p q
  | atan2 => .expression ("atan2(" ++ p.argument ++ ", " ++ q.argument ++ ")")

/-- A product or quotient with nought is nought, whatever the other operand says. -/
def Binary.Discards (o : Binary) (q r : Param Float) : Prop :=
  (o = .mul ∨ o = .div) ∧ q.isZero = true ∧ r = .literal 0.0

section

variable {s text : String} {q r : Param Float} {o : Binary}

/-! ## Results -/

theorem Param.add_expression (q : Param Float) (s : String) :
    q.add (.expression s) = if q.isZero then .expression s else .joined "+" q (.expression s) := by
  cases q <;> rfl

theorem Param.sub_expression (q : Param Float) (s : String) :
    q.sub (.expression s) =
      if q.isZero then (Param.expression s).neg else .joined "-" q (.expression s) := by
  cases q <;> rfl

theorem Param.mul_expression (q : Param Float) (s : String) :
    q.mul (.expression s) = if q.isZero then .literal 0.0 else
      if q.isOne then .expression s else .joined "*" q (.expression s) := by
  have hzero : (q.isZero || (Param.expression s : Param Float).isZero) = q.isZero :=
    Bool.or_false q.isZero
  cases q with
  | literal x =>
    show (if (Param.literal x).isZero || (Param.expression s : Param Float).isZero then _ else _) = _
    rw [hzero]
    rfl
  | expression t => rfl

theorem Param.div_expression (q : Param Float) (s : String) :
    q.div (.expression s) =
      .ok (if q.isZero then .literal 0.0 else .joined "/" q (.expression s)) := by
  cases q <;> rfl

theorem Param.expression_div (h : (Param.expression s).div q = .ok r) :
    r = if q.isOne then .expression s else .joined "/" (.expression s) q := by
  unfold Param.div at h
  split at h
  · cases h
  · exact (Except.ok.inj h).symm

/-- What an operation with an expression on its left comes to. -/
theorem Binary.run_left (h : o.run (.expression s) q = .ok r) :
    r = .expression s ∨ o.Discards q r ∨ r = o.written (.expression s) q := by
  cases o with
  | add =>
    have hadd : r = if q.isZero then .expression s else .joined "+" (.expression s) q :=
      (Except.ok.inj h).symm
    split at hadd
    · exact .inl hadd
    · exact .inr (.inr hadd)
  | sub =>
    have hsub : r = if q.isZero then .expression s else .joined "-" (.expression s) q :=
      (Except.ok.inj h).symm
    split at hsub
    · exact .inl hsub
    · exact .inr (.inr hsub)
  | mul =>
    have hmul : r = if q.isZero then .literal 0.0 else
        if q.isOne then .expression s else .joined "*" (.expression s) q :=
      (Except.ok.inj h).symm
    split at hmul
    · exact .inr (.inl ⟨.inl rfl, ‹_›, hmul⟩)
    · split at hmul
      · exact .inl hmul
      · exact .inr (.inr hmul)
  | div =>
    have hdiv := Param.expression_div h
    split at hdiv
    · exact .inl hdiv
    · exact .inr (.inr hdiv)
  | pow => exact .inr (.inr (Except.ok.inj h).symm)
  | atan2 => exact .inr (.inr (Except.ok.inj h).symm)

/-- What an operation with an expression on its right comes to. -/
theorem Binary.run_right (h : o.run q (.expression s) = .ok r) :
    r = .expression s ∨ r = (Param.expression s).neg ∨ o.Discards q r ∨
      r = o.written q (.expression s) := by
  cases o with
  | add =>
    have hadd := (Except.ok.inj h).symm.trans (q.add_expression s)
    split at hadd
    · exact .inl hadd
    · exact .inr (.inr (.inr hadd))
  | sub =>
    have hsub := (Except.ok.inj h).symm.trans (q.sub_expression s)
    split at hsub
    · exact .inr (.inl hsub)
    · exact .inr (.inr (.inr hsub))
  | mul =>
    have hmul := (Except.ok.inj h).symm.trans (q.mul_expression s)
    split at hmul
    · exact .inr (.inr (.inl ⟨.inl rfl, ‹_›, hmul⟩))
    · split at hmul
      · exact .inl hmul
      · exact .inr (.inr (.inr hmul))
  | div =>
    have hdiv := Except.ok.inj (h.symm.trans (q.div_expression s))
    split at hdiv
    · exact .inr (.inr (.inl ⟨.inr rfl, ‹_›, hdiv⟩))
    · exact .inr (.inr (.inr hdiv))
  | pow | atan2 =>
    cases q with
    | literal x => exact .inr (.inr (.inr (Except.ok.inj h).symm))
    | expression t => exact .inr (.inr (.inr (Except.ok.inj h).symm))

/-- Every operation but the angle of a point writes a sign between its operands. -/
theorem Binary.exists_joins (ho : o ≠ .atan2) :
    ∃ sign g k, Joins sign g k ∧ g.isRound = false ∧
      ∀ p q, o.written p q = .joined sign p q := by
  cases o with
  | add => exact ⟨_, _, _, joins_plus, rfl, fun _ _ => rfl⟩
  | sub => exact ⟨_, _, _, joins_minus, rfl, fun _ _ => rfl⟩
  | mul => exact ⟨_, _, _, joins_star, rfl, fun _ _ => rfl⟩
  | div => exact ⟨_, _, _, joins_slash, rfl, fun _ _ => rfl⟩
  | pow => exact ⟨_, _, _, joins_power, rfl, fun _ _ => rfl⟩
  | atan2 => exact absurd rfl ho

/-- The other operations on one operand call a function. -/
theorem Unary.exists_apply {o : Unary} (ho : o.isCall = true) :
    ∃ name fn g, (name, fn) ∈ singleFunctions ∧ ∀ p : Param Float, o.run p = p.apply name g := by
  cases o with
  | neg | recip => cases ho
  | abs => exact ⟨_, .abs, _, by decide, fun _ => rfl⟩
  | sin => exact ⟨_, .sin, _, by decide, fun _ => rfl⟩
  | cos => exact ⟨_, .cos, _, by decide, fun _ => rfl⟩
  | acos => exact ⟨_, .acos, _, by decide, fun _ => rfl⟩
  | exp => exact ⟨_, .exp, _, by decide, fun _ => rfl⟩
  | sqrt => exact ⟨_, .sqrt, _, by decide, fun _ => rfl⟩
  | signum => exact ⟨_, .sign, _, by decide, fun _ => rfl⟩

/-! ## Plain texts -/

theorem Param.HasPlainText.operand (h : q.HasPlainText) : IsPlainText q.operand.toList := by
  cases q with
  | literal x =>
    obtain ⟨t, -, hwritten⟩ := exists_constant x
    exact hwritten.plain
  | expression s =>
    show IsPlainText (if isAtomic s then s else "(" ++ s ++ ")").toList
    split
    · exact h
    · have hopen : IsPlainText ['('] := isPlainText_of_all rfl
      have hclose : IsPlainText [')'] := isPlainText_of_all rfl
      rw [toList_brackets]
      exact (hopen.append h).append hclose

theorem Param.HasPlainText.argument (h : q.HasPlainText) : IsPlainText q.argument.toList := by
  cases q with
  | literal x =>
    obtain ⟨t, -, hwritten⟩ := exists_constant x
    exact hwritten.plain
  | expression s => exact h

/-! ## Texts that operations write -/

theorem isPlainText_joined {sign : String} {g : Sign} {k : Operator} {p : Param Float}
    (hsign : Joins sign g k) (hp : p.HasPlainText) (hq : q.HasPlainText) :
    IsPlainText ("(" ++ p.operand ++ " " ++ sign ++ " " ++ q.operand ++ ")").toList := by
  have hopen : IsPlainText ['('] := isPlainText_of_all rfl
  have hspace : IsPlainText [' '] := isPlainText_of_all rfl
  have hclose : IsPlainText [')'] := isPlainText_of_all rfl
  rw [toList_joined]
  exact hopen.append ((hp.operand.append (hspace.append (hsign.plain.append
    (hspace.append hq.operand)))).append hclose)

theorem isPlainText_negated (hq : q.HasPlainText) :
    IsPlainText ("(-" ++ q.operand ++ ")").toList := by
  have hopen : IsPlainText ['(', '-'] := isPlainText_of_all rfl
  have hclose : IsPlainText [')'] := isPlainText_of_all rfl
  rw [toList_negated]
  exact hopen.append (hq.operand.append hclose)

theorem isPlainText_atan2 {p : Param Float} (hp : p.HasPlainText) (hq : q.HasPlainText) :
    IsPlainText ("atan2(" ++ p.argument ++ ", " ++ q.argument ++ ")").toList := by
  have hcomma : IsPlainText [',', ' '] := isPlainText_of_all rfl
  rw [toList_atan2]
  exact calls_atan2.isPlainText (hp.argument.append (hcomma.append hq.argument))

/-! ## Values -/

theorem ne_ok_of_error {e : NoValue} (h : Formula.read s = .error e) :
    ∀ f, Formula.read s ≠ .ok f := by
  rw [h]
  nofun

theorem hasNoValue_self (hread : ∀ f, Formula.read s ≠ .ok f) :
    (Param.expression s).HasNoValue := by
  intro b x hx
  have hvalue : b.evaluate s = .ok x := hx
  rw [Bindings.evaluate_eq_ok_iff] at hvalue
  obtain ⟨f, hf, -⟩ := bind_eq_ok hvalue
  exact hread f hf

/-- A text with a part that is no formula has no value. -/
theorem hasNoValue_of_encloses (hs : IsPlainText s.toList) (hread : ∀ f, Formula.read s ≠ .ok f)
    (h : Encloses text.toList s.toList) (htext : IsPlainText text.toList) :
    (Param.expression text).HasNoValue := by
  refine hasNoValue_self fun f hf => ?_
  obtain ⟨g, hg⟩ := h.readWithin hs htext hf
  exact hread g hg

end

section

variable {s : String} {q r : Param Float} {o : Binary} (hs : IsPlainText s.toList)
  (hpairs : bracketsPair 0 s.toList = true) (hread : ∀ f, Formula.read s ≠ .ok f)

include hs hpairs hread

theorem hasNoValue_neg : (Param.expression s).neg.HasNoValue := by
  refine hasNoValue_of_encloses hs hread ?_ (isPlainText_negated (q := .expression s) hs)
  rw [toList_negated]
  exact encloses_negated hpairs hs

/-- A malformed text on the left makes what an operation writes malformed. -/
theorem hasNoValue_written_left (hq : q.HasPlainText)
    (hcommas : o = .atan2 → commasInside 0 s.toList = true) :
    (o.written (.expression s) q).HasNoValue := by
  by_cases ho : o = .atan2
  · subst ho
    refine hasNoValue_of_encloses hs hread ?_ (isPlainText_atan2 (p := .expression s) hs hq)
    rw [toList_atan2]
    exact encloses_first calls_atan2 hpairs (hcommas rfl)
  · obtain ⟨sign, g, k, hsign, hg, hwritten⟩ := Binary.exists_joins ho
    rw [hwritten]
    refine hasNoValue_of_encloses hs hread ?_
      (isPlainText_joined (p := .expression s) hsign hs hq)
    rw [toList_joined]
    exact encloses_left hsign hg hpairs hs

/-- A malformed text on the right does so, too. -/
theorem hasNoValue_written_right (hq : q.HasPlainText)
    (hcommas : o = .atan2 → commasInside 0 s.toList = true ∧ ∃ c ∈ s.toList, c ≠ ' ') :
    (o.written q (.expression s)).HasNoValue := by
  by_cases ho : o = .atan2
  · subst ho
    obtain ⟨hinside, hnonblank⟩ := hcommas rfl
    refine hasNoValue_of_encloses hs hread ?_ (isPlainText_atan2 (q := .expression s) hq hs)
    rw [toList_atan2]
    exact encloses_second calls_atan2 hpairs hinside hnonblank
  · obtain ⟨sign, g, k, hsign, hg, hwritten⟩ := Binary.exists_joins ho
    rw [hwritten]
    refine hasNoValue_of_encloses hs hread ?_
      (isPlainText_joined (q := .expression s) hsign hq hs)
    rw [toList_joined]
    exact encloses_right hsign hg hpairs hs

/-- The call of a function on a malformed text. -/
theorem hasNoValue_apply {name : String} {fn : Fn} {g : Float → Except (Fault Float) Float}
    (hname : (name, fn) ∈ singleFunctions) (hcommas : commasInside 0 s.toList = true)
    (h : (Param.expression s).apply name g = .ok r) : r.HasNoValue := by
  have hcalls := calls_single hname
  cases h
  refine hasNoValue_of_encloses hs hread ?_ ?_
  · show Encloses (name ++ "(" ++ s ++ ")").toList s.toList
    rw [toList_call]
    exact encloses_called hcalls hpairs hcommas
  · show IsPlainText (name ++ "(" ++ s ++ ")").toList
    rw [toList_call]
    exact hcalls.isPlainText hs

end

/-! ## Operations -/

/-- A text that is no formula, but keeps its brackets in pairs, has no value after an operation
either, unless a product or quotient with nought left it out. Where the operation is a call, the
text has to keep its commas in brackets as well, and the second argument is not to be blank. -/
theorem malformed_operand_has_no_value {s : String} (hs : IsPlainText s.toList)
    (hpairs : bracketsPair 0 s.toList = true) (hread : ∀ f, Formula.read s ≠ .ok f) :
    (∀ (o : Unary) (r : Param Float), (o.isCall = true → commasInside 0 s.toList = true) →
      o.run (.expression s) = .ok r → r.HasNoValue) ∧
    (∀ (o : Binary) (q r : Param Float), q.HasPlainText →
      (o = .atan2 → commasInside 0 s.toList = true) →
      o.run (.expression s) q = .ok r → r.HasNoValue ∨ o.Discards q r) ∧
    ∀ (o : Binary) (q r : Param Float), q.HasPlainText →
      (o = .atan2 → commasInside 0 s.toList = true ∧ ∃ c ∈ s.toList, c ≠ ' ') →
      o.run q (.expression s) = .ok r → r.HasNoValue ∨ o.Discards q r := by
  have hright : ∀ (o : Binary) (q r : Param Float), q.HasPlainText →
      (o = .atan2 → commasInside 0 s.toList = true ∧ ∃ c ∈ s.toList, c ≠ ' ') →
      o.run q (.expression s) = .ok r → r.HasNoValue ∨ o.Discards q r := by
    intro o q r hq hcommas h
    rcases Binary.run_right h with rfl | rfl | hdiscards | rfl
    · exact .inl (hasNoValue_self hread)
    · exact .inl (hasNoValue_neg hs hpairs hread)
    · exact .inr hdiscards
    · exact .inl (hasNoValue_written_right hs hpairs hread hq hcommas)
  refine ⟨fun o r hcommas h => ?_, fun o q r hq hcommas h => ?_, hright⟩
  · cases hcall : o.isCall with
    | true =>
      obtain ⟨name, fn, g, hname, happly⟩ := Unary.exists_apply hcall
      rw [happly] at h
      exact hasNoValue_apply hs hpairs hread hname (hcommas hcall) h
    | false =>
      cases o with
      | neg =>
        cases h
        exact hasNoValue_neg hs hpairs hread
      | recip =>
        have hone : (Param.literal (1.0 : Float)).isZero = false := rfl
        have hdiv : Binary.div.run (.literal 1.0) (.expression s) = .ok r := h
        rcases hright .div (.literal 1.0) r trivial nofun hdiv with hnone | ⟨-, hzero, -⟩
        · exact hnone
        · rw [hone] at hzero
          cases hzero
      | _ => cases hcall
  · rcases Binary.run_left h with rfl | hdiscards | rfl
    · exact .inl (hasNoValue_self hread)
    · exact .inr hdiscards
    · exact .inl (hasNoValue_written_left hs hpairs hread hq hcommas)

/-- A sum without its second operand. -/
theorem unfinished_sum_has_no_value :
    IsPlainText "x +".toList ∧ bracketsPair 0 "x +".toList = true ∧
      (∀ f, Formula.read "x +" ≠ .ok f) ∧
      (Param.expression "sqrt(x +)").HasNoValue ∧
      (Param.expression "((x +) * y)").HasNoValue ∧
      (Param.expression "atan2(1.0, x +)").HasNoValue := by
  have hs : IsPlainText "x +".toList := isPlainText_of_all rfl
  have hpairs : bracketsPair 0 "x +".toList = true := by decide +kernel
  have hcommas : commasInside 0 "x +".toList = true := by decide +kernel
  have hread := ne_ok_of_error (show Formula.read "x +" = .error .malformed by decide +kernel)
  obtain ⟨hunary, hleft, hright⟩ := malformed_operand_has_no_value hs hpairs hread
  have hy : IsPlainText "y".toList := isPlainText_of_all rfl
  have hroot := hunary .sqrt (.expression "sqrt(x +)") (fun _ => hcommas) rfl
  have hproduct := hleft .mul (.expression "y") (.expression "((x +) * y)") hy nofun
    (by decide +kernel)
  have hangle := hright .atan2 (.literal 1.0) (.expression "atan2(1.0, x +)") trivial
    (fun _ => ⟨hcommas, 'x', by decide +kernel, by decide⟩) (by decide +kernel)
  exact ⟨hs, hpairs, hread, hroot, hproduct.resolve_right (fun h => by cases h.2.2),
    hangle.resolve_right (fun h => by cases h.2.2)⟩

/-- Brackets that are not in pairs close those that are put around the text, a comma that is not in
brackets ends the argument, and a blank second argument leaves the call to the first one. -/
theorem malformed_operands_with_values :
    (∀ f, Formula.read "1) + (2" ≠ .ok f) ∧
      Binary.add.run (.expression "1) + (2") (.literal 1.0) =
        .ok (.expression "((1) + (2) + 1.0)") ∧
      ((Param.expression "((1) + (2) + 1.0)").value Bindings.empty.evaluate).isOk = true ∧
    (∀ f, Formula.read "x," ≠ .ok f) ∧
      Unary.sin.run (.expression "x,") = .ok (.expression "sin(x,)") ∧
      ((Param.expression "sin(x,)").value (Bindings.evaluate ⟨[("x", 1.0)]⟩)).isOk = true ∧
    (∀ f, Formula.read "" ≠ .ok f) ∧
      Binary.atan2.run (.expression "2, 3") (.expression "") = .ok (.expression "atan2(2, 3, )") ∧
      ((Param.expression "atan2(2, 3, )").value Bindings.empty.evaluate).isOk = true := by
  have hbrackets : Formula.read "1) + (2" = .error .malformed := by decide +kernel
  have hcomma : Formula.read "x," = .error (.notArithmetic (some "Tuple")) := by decide +kernel
  have hblank : Formula.read "" = .error .malformed := by decide +kernel
  refine ⟨ne_ok_of_error hbrackets, by decide +kernel, by decide +kernel, ne_ok_of_error hcomma,
    by decide +kernel, by decide +kernel, ne_ok_of_error hblank, by decide +kernel,
    by decide +kernel⟩

end QuantumGates
