-- The unit law of products in their symbolic form. Each of the four sums of a product with the
-- identity has one term that is an operand itself, and three noughts; the shortcuts of parameters
-- and the rules of doubles leave the operand alone. So the product has the expressions of the gate
-- itself, letter by letter, and numbers equal to its numbers.
import QuantumGates.Proofs.Gate.SymbolicProduct
import QuantumGates.Proofs.Number.ExactRounding

namespace QuantumGates

namespace Param

/-! ## Parameters that agree -/

/-- An expression, or a number that is neither infinite nor undefined. -/
def IsFinite (p : Param Float) : Prop := ∀ x, p = .literal x → x.isFinite = true

/-- The same parameter, or two noughts. -/
def Agrees (p q : Param Float) : Prop := p = q ∨ p.isZero = true ∧ q.isZero = true

variable {p q z : Param Float}

theorem isZero_expression (s : String) : (expression s : Param Float).isZero = false := rfl

/-- A parameter that is nought is a number. -/
theorem exists_of_isZero (h : p.isZero = true) : ∃ x, p = literal x ∧ (x == 0.0) = true := by
  cases p with
  | literal x => exact ⟨x, rfl, h⟩
  | expression s => cases h

theorem IsFinite.of_isZero (h : p.isZero = true) : p.IsFinite := by
  obtain ⟨x, rfl, hx⟩ := exists_of_isZero h
  rintro _ ⟨⟩
  exact Double.isFinite_of_beq_zero hx

theorem Agrees.isFinite (h : Agrees p q) (hq : q.IsFinite) : p.IsFinite := by
  rcases h with rfl | ⟨hp, -⟩
  · exact hq
  · exact .of_isZero hp

theorem Agrees.trans {r : Param Float} (h : Agrees p q) (h' : Agrees q r) : Agrees p r := by
  rcases h with rfl | ⟨hp, hq⟩
  · exact h'
  · rcases h' with rfl | ⟨-, hr⟩
    · exact .inr ⟨hp, hq⟩
    · exact .inr ⟨hp, hr⟩

theorem Agrees.of_same {x y : Float} (h : Double.Same x y) : Agrees (literal x) (literal y) :=
  h.imp_left (congrArg literal)

/-- Parameters that agree are equal to callers. -/
theorem Agrees.equal (h : Agrees p q) (hq : q.IsFinite) : p.equal q = true := by
  rcases h with rfl | ⟨hp, hzero⟩
  · cases p with
    | literal x => exact Double.Same.beq (.inl rfl) (hq x rfl)
    | expression s => exact beq_self_eq_true s
  · obtain ⟨x, rfl, hx⟩ := exists_of_isZero hp
    obtain ⟨y, rfl, hy⟩ := exists_of_isZero hzero
    exact Double.beq_of_beq_zero hx hy

/-! ## Products with one and nought -/

protected theorem one_mul (hp : p.IsFinite) : (literal 1).mul p = p := by
  cases p with
  | literal x => exact congrArg literal (Double.one_mul (hp x rfl))
  | expression s => rfl

protected theorem mul_one (hp : p.IsFinite) : p.mul (literal 1) = p := by
  cases p with
  | literal x => exact congrArg literal (Double.mul_one (hp x rfl))
  | expression s => rfl

theorem isZero_nought_mul (hz : z.isZero = true) (hp : p.IsFinite) : (z.mul p).isZero = true := by
  obtain ⟨x, rfl, hx⟩ := exists_of_isZero hz
  cases p with
  | literal y => exact Double.nought_mul hx (hp y rfl)
  | expression s =>
    unfold mul
    simp only [hz, Bool.true_or, if_true]
    rfl

theorem isZero_mul_nought (hp : p.IsFinite) (hz : z.isZero = true) : (p.mul z).isZero = true := by
  obtain ⟨x, rfl, hx⟩ := exists_of_isZero hz
  cases p with
  | literal y => exact Double.mul_nought (hp y rfl) hx
  | expression s =>
    unfold mul
    simp only [hz, Bool.or_true, if_true]
    rfl

/-! ## Sums and differences with nought -/

theorem Agrees.add_nought (h : Agrees p q) (hq : q.IsFinite) (hz : z.isZero = true) :
    Agrees (p.add z) q := by
  have hp := h.isFinite hq
  refine Agrees.trans ?_ h
  obtain ⟨x, rfl, hx⟩ := exists_of_isZero hz
  cases p with
  | literal y => exact .of_same (Double.add_nought (hp y rfl) hx)
  | expression s =>
    refine .inl ?_
    unfold add
    simp only [isZero_expression, hz, Bool.false_eq_true, if_false, if_true]

theorem Agrees.nought_add (h : Agrees p q) (hq : q.IsFinite) (hz : z.isZero = true) :
    Agrees (z.add p) q := by
  have hp := h.isFinite hq
  refine Agrees.trans ?_ h
  obtain ⟨x, rfl, hx⟩ := exists_of_isZero hz
  cases p with
  | literal y => exact .of_same (Double.nought_add hx (hp y rfl))
  | expression s =>
    refine .inl ?_
    unfold add
    simp only [hz, if_true]

theorem Agrees.sub_nought (h : Agrees p q) (hq : q.IsFinite) (hz : z.isZero = true) :
    Agrees (p.sub z) q := by
  have hp := h.isFinite hq
  refine Agrees.trans ?_ h
  obtain ⟨x, rfl, hx⟩ := exists_of_isZero hz
  cases p with
  | literal y => exact .of_same (Double.sub_nought (hp y rfl) hx)
  | expression s =>
    refine .inl ?_
    unfold sub
    simp only [hz, if_true]

theorem isZero_of_agrees (h : Agrees p q) (hq : q.isZero = true) : p.isZero = true := by
  rcases h with rfl | ⟨hp, -⟩
  · exact hq
  · exact hp

theorem isZero_add (hp : p.isZero = true) (hz : z.isZero = true) : (p.add z).isZero = true :=
  isZero_of_agrees (Agrees.add_nought (.inl rfl) (.of_isZero hp) hz) hp

theorem isZero_sub (hp : p.isZero = true) (hz : z.isZero = true) : (p.sub z).isZero = true :=
  isZero_of_agrees (Agrees.sub_nought (.inl rfl) (.of_isZero hp) hz) hp

end Param

/-! ## Canonical values -/

namespace Canonical

/-- Each value is an expression or a finite number. -/
structure IsFinite (c : Canonical (Param Float)) : Prop where
  alphaRe : c.alphaRe.IsFinite
  alphaIm : c.alphaIm.IsFinite
  betaRe : c.betaRe.IsFinite
  betaIm : c.betaIm.IsFinite
  phase : c.phase.IsFinite

/-- Each value agrees with the one in its place. -/
structure Agrees (c d : Canonical (Param Float)) : Prop where
  alphaRe : c.alphaRe.Agrees d.alphaRe
  alphaIm : c.alphaIm.Agrees d.alphaIm
  betaRe : c.betaRe.Agrees d.betaRe
  betaIm : c.betaIm.Agrees d.betaIm
  phase : c.phase.Agrees d.phase

/-- The values of the identity. -/
def identity : Canonical (Param Float) :=
  ⟨.literal 1, .literal 0, .literal 0, .literal 0, .literal 0⟩

variable {c d : Canonical (Param Float)}

theorem identity_mul (h : c.IsFinite) : (identity.mul c).Agrees c := by
  have hzero : (Param.literal 0 : Param Float).isZero = true := rfl
  have hone {p : Param Float} (hp : p.IsFinite) : ((Param.literal 1).mul p).Agrees p :=
    .inl (Param.one_mul hp)
  have hnought {p : Param Float} (hp : p.IsFinite) : ((Param.literal 0).mul p).isZero = true :=
    Param.isZero_nought_mul hzero hp
  have hre := hnought h.alphaRe
  have him := hnought h.alphaIm
  have hre' := hnought h.betaRe
  have him' := hnought h.betaIm
  exact {
    alphaRe := ((hone h.alphaRe).sub_nought h.alphaRe him).sub_nought h.alphaRe
      (Param.isZero_add hre' him')
    alphaIm := ((hone h.alphaIm).add_nought h.alphaIm hre).sub_nought h.alphaIm
      (Param.isZero_sub him' hre')
    betaRe := ((hone h.betaRe).add_nought h.betaRe him').nought_add h.betaRe
      (Param.isZero_sub hre him)
    betaIm := ((hone h.betaIm).sub_nought h.betaIm hre').nought_add h.betaIm
      (Param.isZero_add him hre)
    phase := Param.Agrees.nought_add (.inl rfl) h.phase hzero }

theorem mul_identity (h : c.IsFinite) : (c.mul identity).Agrees c := by
  have hzero : (Param.literal 0 : Param Float).isZero = true := rfl
  have hone {p : Param Float} (hp : p.IsFinite) : (p.mul (Param.literal 1)).Agrees p :=
    .inl (Param.mul_one hp)
  have hnought {p : Param Float} (hp : p.IsFinite) : (p.mul (Param.literal 0)).isZero = true :=
    Param.isZero_mul_nought hp hzero
  have hre := hnought h.alphaRe
  have him := hnought h.alphaIm
  have hre' := hnought h.betaRe
  have him' := hnought h.betaIm
  exact {
    alphaRe := ((hone h.alphaRe).sub_nought h.alphaRe him).sub_nought h.alphaRe
      (Param.isZero_add hre' him')
    alphaIm := ((hone h.alphaIm).nought_add h.alphaIm hre).sub_nought h.alphaIm
      (Param.isZero_sub hre' him')
    betaRe := ((hone h.betaRe).sub_nought h.betaRe him').add_nought h.betaRe
      (Param.isZero_add hre him)
    betaIm := ((hone h.betaIm).nought_add h.betaIm hre').add_nought h.betaIm
      (Param.isZero_sub hre him)
    phase := Param.Agrees.add_nought (.inl rfl) h.phase hzero }

/-- Gates whose values agree are equal to callers. -/
theorem Agrees.equal_gate (h : c.Agrees d) (hd : d.IsFinite) (q : ℕ) :
    (c.gate q).equal (d.gate q) = true := by
  have hre := h.alphaRe.equal hd.alphaRe
  have him := h.alphaIm.equal hd.alphaIm
  have hre' := h.betaRe.equal hd.betaRe
  have him' := h.betaIm.equal hd.betaIm
  have hphase := h.phase.equal hd.phase
  unfold Operation.equal gate
  simp [Operation.values, Args.values, FieldKind.tagged, Operation.agree, FieldValue.equalBy,
    hre, him, hre', him', hphase]

end Canonical

/-! ## The unit law -/

/-- The product of a gate with the identity on its qubit, from either side, is equal to the gate
in its general form. -/
theorem product_with_identity {g : Operation (Param Float)} {q : ℕ} {c : Canonical (Param Float)}
    (hq : g.singleQubit? = some q) (hc : g.canonical? = some (.ok c)) (hfinite : c.IsFinite) :
    ∃ general left right, g.toGeneral? = some (.ok general) ∧
      Operation.multiply ⟨.single .identity, q, ()⟩ g = .ok left ∧
      g.multiply ⟨.single .identity, q, ()⟩ = .ok right ∧
      left.equal general = true ∧ right.equal general = true := by
  obtain ⟨k, args, rfl⟩ := Operation.exists_single hq
  have hvalues : k.canonical args = .ok c := Option.some.inj hc
  have hidentity : SingleKind.identity.canonical (R := Float) (q, ()) = .ok .identity := rfl
  refine ⟨c.gate q, (Canonical.identity.mul c).gate q, (c.mul .identity).gate q, ?_, ?_, ?_,
    (Canonical.identity_mul hfinite).equal_gate hfinite q,
    (Canonical.mul_identity hfinite).equal_gate hfinite q⟩
  · unfold Operation.toGeneral?
    simp only [Operation.canonical?, hq, hvalues, Except.map]
  · rw [Operation.multiply_single rfl hq, hidentity, hvalues]
    rfl
  · rw [Operation.multiply_single hq rfl, hidentity, hvalues]
    rfl

/-- A gate with expressions, a number and a negative nought among its values. -/
theorem product_with_identity_of_mixed_values :
    let g : Operation (Param Float) := Canonical.gate
      ⟨.expression "a", .literal (-0.0), .literal 0.5, .expression "b + 1", .expression "f"⟩ 3
    ∃ general left right, g.toGeneral? = some (.ok general) ∧
      Operation.multiply ⟨.single .identity, 3, ()⟩ g = .ok left ∧
      g.multiply ⟨.single .identity, 3, ()⟩ = .ok right ∧
      left.equal general = true ∧ right.equal general = true := by
  have hexpression (s : String) : (Param.expression s : Param Float).IsFinite := nofun
  have hliteral {x : Float} (hx : x.isFinite = true) : (Param.literal x).IsFinite := by
    rintro _ ⟨⟩
    exact hx
  exact product_with_identity rfl rfl ⟨hexpression _, hliteral rfl, hliteral rfl,
    hexpression _, hexpression _⟩

end QuantumGates
