-- Renamed circuits. A circuit can be renamed just when all its qubits have a new name. Every
-- builder reads the listed qubits by their places only, so building commutes with renaming, even
-- where two qubits get the same name.
import QuantumGates.Proofs.Circuit.FlipRotation
import QuantumGates.Proofs.Exact.Operations

namespace QuantumGates

/-! ## When renaming succeeds -/

section

variable {E P : Type} {rename : ℕ → Except E ℕ}

/-- The new name of a qubit, if it has one. -/
def newName (rename : ℕ → Except E ℕ) (q : ℕ) : ℕ :=
  match rename q with
  | .ok p => p
  | .error _ => 0

theorem rename_eq_newName {q : ℕ} (h : ∃ p, rename q = .ok p) :
    rename q = .ok (newName rename q) := by
  obtain ⟨p, hp⟩ := h
  unfold newName
  rw [hp]

theorem FieldKind.named_of_traverse {k : FieldKind} {x x' : k.Carrier P}
    (h : k.traverse (m := Except E) rename pure x = .ok x') :
    ∀ q ∈ (k.tagged x).qubitList, ∃ p, rename q = .ok p := by
  cases k with
  | qubit =>
    intro q hq
    obtain rfl := List.mem_singleton.mp hq
    exact ⟨x', h⟩
  | qubits =>
    intro q hq
    obtain ⟨i, hi, rfl⟩ := List.getElem_of_mem hq
    have hall := mapM_eq_ok_iff.mp h
    exact ⟨_, hall.get hi (hall.length_eq ▸ hi)⟩
  | parameter => exact fun q hq => absurd hq List.not_mem_nil
  | parameters => exact fun q hq => absurd hq List.not_mem_nil
  | flag => exact fun q hq => absurd hq List.not_mem_nil
  | name => exact fun q hq => absurd hq List.not_mem_nil

theorem Args.named_of_traverse {fs : List Field} {a a' : Args P fs}
    (h : a.traverse (m := Except E) rename pure fs = .ok a') :
    ∀ q ∈ (a.values fs).flatMap FieldValue.qubitList, ∃ p, rename q = .ok p := by
  induction fs with
  | nil => exact fun q hq => absurd hq List.not_mem_nil
  | cons f fs ih =>
    obtain ⟨x, rest⟩ := a
    obtain ⟨y, hy, h⟩ := bind_eq_ok h
    obtain ⟨rest', hrest, -⟩ := bind_eq_ok h
    intro q hq
    rw [Args.values, List.flatMap_cons, List.mem_append] at hq
    rcases hq with hq | hq
    · exact FieldKind.named_of_traverse hy q hq
    · exact ih hrest q hq

/-- An operation is renamed just when all its qubits have a new name. -/
theorem Operation.remap_eq_ok_iff {op op' : Operation P} :
    op.remap rename = .ok op' ↔
      (∀ q ∈ op.qubits, ∃ p, rename q = .ok p) ∧ op' = op.renamed (newName rename) := by
  have hname : (∀ q ∈ op.qubits, ∃ p, rename q = .ok p) →
      op.remap rename = .ok (op.renamed (newName rename)) := fun h =>
    Operation.remap_eq_ok fun q hq => rename_eq_newName (h q hq)
  constructor
  · intro h
    have hall : ∀ q ∈ op.qubits, ∃ p, rename q = .ok p := by
      unfold Operation.remap at h
      cases ha : op.args.traverse (m := Except E) rename pure op.kind.fields with
      | error e =>
        rw [ha] at h
        cases h
      | ok a => exact Args.named_of_traverse ha
    exact ⟨hall, Except.ok.inj (h.symm.trans (hname hall))⟩
  · rintro ⟨h, rfl⟩
    exact hname h

/-- A circuit is renamed just when all qubits of its operations have a new name. -/
theorem Circuit.remap_eq_ok_iff {R : Type} {c d : Circuit R} :
    c.remap rename = .ok d ↔
      (∀ op ∈ c, ∀ q ∈ op.qubits, ∃ p, rename q = .ok p) ∧
        d = c.map (Operation.renamed (newName rename)) := by
  have hname : (∀ op ∈ c, ∀ q ∈ op.qubits, ∃ p, rename q = .ok p) →
      c.remap rename = .ok (c.map (Operation.renamed (newName rename))) := fun h =>
    Circuit.remap_eq_ok fun op hop q hq => rename_eq_newName (h op hop q hq)
  constructor
  · intro h
    have hall : ∀ op ∈ c, ∀ q ∈ op.qubits, ∃ p, rename q = .ok p := by
      intro op hop
      obtain ⟨i, hi, rfl⟩ := List.getElem_of_mem hop
      have hops := mapM_eq_ok_iff.mp h
      exact (Operation.remap_eq_ok_iff.mp (hops.get hi (hops.length_eq ▸ hi))).1
    exact ⟨hall, Except.ok.inj (h.symm.trans (hname hall))⟩
  · rintro ⟨h, rfl⟩
    exact hname h

end

/-! ## Names that stay -/

section

variable {P : Type} {g : ℕ → ℕ}

theorem FieldKind.renamed_eq_self {k : FieldKind} {x : k.Carrier P}
    (h : ∀ q ∈ (k.tagged x).qubitList, g q = q) : k.renamed g x = x := by
  cases k with
  | qubit => exact h x (List.mem_singleton.mpr rfl)
  | qubits => exact (List.map_congr_left h).trans (List.map_id x)
  | parameter => rfl
  | parameters => rfl
  | flag => rfl
  | name => rfl

theorem Args.renamed_eq_self {fs : List Field} {a : Args P fs}
    (h : ∀ q ∈ (a.values fs).flatMap FieldValue.qubitList, g q = q) : a.renamed g fs = a := by
  induction fs with
  | nil => rfl
  | cons f fs ih =>
    obtain ⟨x, rest⟩ := a
    simp only [Args.values, List.flatMap_cons, List.mem_append] at h
    rw [Args.renamed, FieldKind.renamed_eq_self fun q hq => h q (.inl hq),
      ih fun q hq => h q (.inr hq)]

/-- An operation whose qubits keep their names is not changed. -/
theorem Operation.renamed_eq_self {op : Operation P} (h : ∀ q ∈ op.qubits, g q = q) :
    op.renamed g = op := by
  unfold Operation.renamed
  rw [Args.renamed_eq_self h]

end

/-! ## Builders read places -/

section

variable {R : Type} (g : ℕ → ℕ)

theorem renamed_cnot (a b : ℕ) :
    (Operation.cnot a b : Operation (Param R)).renamed g = .cnot (g a) (g b) := rfl

theorem renamed_hadamard (q : ℕ) :
    (Operation.hadamard q : Operation (Param R)).renamed g = .hadamard (g q) := rfl

theorem renamed_tGate (q : ℕ) :
    (Operation.tGate q : Operation (Param R)).renamed g = .tGate (g q) := rfl

theorem renamed_phaseShift (q : ℕ) (theta : Param R) :
    (Operation.phaseShift q theta).renamed g = .phaseShift (g q) theta := rfl

section

variable {plus minus : ℕ → Operation (Param R)}

theorem renamed_ladderHead (hplus : ∀ q, (plus q).renamed g = plus (g q))
    (hminus : ∀ q, (minus q).renamed g = minus (g q)) (a b t : ℕ) :
    (ladderHead plus minus a b t).map (Operation.renamed g) =
      ladderHead plus minus (g a) (g b) (g t) := by
  simp only [ladderHead, List.map_cons, List.map_nil, renamed_cnot, hplus, hminus]

theorem renamed_ladderTail (hplus : ∀ q, (plus q).renamed g = plus (g q))
    (hminus : ∀ q, (minus q).renamed g = minus (g q)) (a b : ℕ) :
    (ladderTail plus minus a b).map (Operation.renamed g) =
      ladderTail plus minus (g a) (g b) := by
  simp only [ladderTail, List.map_cons, List.map_nil, renamed_cnot, hplus, hminus]

theorem renamed_ladder (hplus : ∀ q, (plus q).renamed g = plus (g q))
    (hminus : ∀ q, (minus q).renamed g = minus (g q)) (a b t : ℕ) :
    (ladder plus minus a b t).map (Operation.renamed g) =
      ladder plus minus (g a) (g b) (g t) := by
  rw [ladder, List.map_append, renamed_ladderHead g hplus hminus,
    renamed_ladderTail g hplus hminus, ladder]

end

theorem renamed_phaseOnEach (qs : List ℕ) (phi : Param R) :
    (phaseOnEach qs phi).map (Operation.renamed g) = phaseOnEach (qs.map g) phi := by
  simp only [phaseOnEach, List.map_map, Function.comp_def, renamed_phaseShift]

theorem renamed_flipCircuit (flips : List (ℕ × ℕ)) :
    (flipCircuit flips : Circuit R).map (Operation.renamed g) =
      flipCircuit (flips.map (Prod.map g g)) := by
  simp only [flipCircuit, List.map_map, Function.comp_def, renamed_cnot, Prod.map]

theorem stairs_map (qs : List ℕ) : (stairs qs).map (Prod.map g g) = stairs (qs.map g) := by
  unfold stairs
  rw [← List.map_tail, List.zip_map]

theorem renamed_stairs_rotation {qs : List ℕ} (hne : qs ≠ []) (hne' : qs.map g ≠ [])
    (theta : Param R) :
    (flipCircuit (stairs qs) ++
        Operation.rotateZ (qs.getLast hne) theta :: flipCircuit (stairs qs).reverse).map
          (Operation.renamed g) =
      flipCircuit (stairs (qs.map g)) ++
        Operation.rotateZ ((qs.map g).getLast hne') theta ::
          flipCircuit (stairs (qs.map g)).reverse := by
  rw [List.map_append, List.map_cons, renamed_flipCircuit, renamed_flipCircuit, List.map_reverse,
    stairs_map, List.getLast_map]
  rfl

theorem renamed_reversal (qs : List ℕ) :
    (reversal qs : Circuit R).map (Operation.renamed g) = reversal (qs.map g) := by
  unfold reversal
  rw [← List.map_reverse, List.zip_map, ← List.map_take, List.length_map, List.map_map,
    List.map_map]
  rfl

variable [Scalar R]

/-! ### Ladders -/

theorem renamed_backEighth (q : ℕ) :
    (backEighth q : Operation (Param R)).renamed g = backEighth (g q) := rfl

theorem renamed_signLadder (a b t : ℕ) :
    (signLadder a b t : Circuit R).map (Operation.renamed g) = signLadder (g a) (g b) (g t) :=
  renamed_ladder g (renamed_tGate g) (renamed_backEighth g) a b t

theorem renamed_toffoliCircuit (a b t : ℕ) :
    (toffoliCircuit a b t : Circuit R).map (Operation.renamed g) =
      toffoliCircuit (g a) (g b) (g t) := by
  simp only [toffoliCircuit, List.map_append, List.map_cons, renamed_hadamard,
    renamed_ladderHead g (renamed_tGate g) (renamed_backEighth g),
    renamed_ladderTail g (renamed_tGate g) (renamed_backEighth g)]

theorem renamed_phaseLadder (a b t : ℕ) (theta : Param R) :
    (phaseLadder a b t theta).map (List.map (Operation.renamed g)) =
      phaseLadder (g a) (g b) (g t) theta := by
  unfold phaseLadder
  cases theta.div (.literal (Scalar.whole 4)) with
  | error f => rfl
  | ok quarter =>
    exact congrArg Except.ok (renamed_ladder g (fun q => renamed_phaseShift g q quarter)
      (fun q => renamed_phaseShift g q quarter.neg) a b t)

/-! ### The parity network -/

/-- A move with its qubits renamed. -/
def NetworkMove.renamed : NetworkMove → NetworkMove
  | flip control target => flip (g control) (g target)
  | phase qubit forward => phase (g qubit) forward

theorem renamed_gate (angle : Param R) (move : NetworkMove) :
    (move.gate angle).renamed g = (move.renamed g).gate angle := by
  cases move <;> rfl

/-- The flip is chosen by a bit of the code, which is the place of a lower qubit. -/
theorem renamed_foldMove {lower : List ℕ} {code : ℕ} (hcode : code < 2 ^ lower.length)
    (accumulator : ℕ) :
    (foldMove lower accumulator code).map (NetworkMove.renamed g) =
      foldMove (lower.map g) (g accumulator) code := by
  unfold foldMove
  by_cases h0 : code = 0
  · rw [if_pos h0, if_pos h0]
    rfl
  · have hbit : highestBit code < lower.length := (Nat.log2_lt h0).mpr hcode
    rw [if_neg h0, if_neg h0]
    simp [NetworkMove.renamed, List.getElem?_eq_getElem hbit]

theorem renamed_stepMoves {lower : List ℕ} {step : ℕ} (hstep : step < 2 ^ lower.length)
    (accumulator : ℕ) :
    (stepMoves lower accumulator step).map (NetworkMove.renamed g) =
      stepMoves (lower.map g) (g accumulator) step := by
  have hcode : grayCode step ^^^ grayCode (step - 1) < 2 ^ lower.length :=
    Nat.xor_lt_two_pow (grayCode_lt hstep) (grayCode_lt (by omega))
  unfold stepMoves
  rw [List.map_append, renamed_foldMove g hcode]
  rfl

theorem renamed_blockMoves (lower : List ℕ) (accumulator : ℕ) :
    (blockMoves lower accumulator).map (NetworkMove.renamed g) =
      blockMoves (lower.map g) (g accumulator) := by
  have hlast : grayCode (2 ^ lower.length - 1) < 2 ^ lower.length :=
    grayCode_lt (Nat.sub_lt (Nat.two_pow_pos _) Nat.one_pos)
  have hsteps : (List.range (2 ^ lower.length)).flatMap
        (fun step => (stepMoves lower accumulator step).map (NetworkMove.renamed g)) =
      (List.range (2 ^ lower.length)).flatMap (stepMoves (lower.map g) (g accumulator)) :=
    List.flatMap_congr fun step hstep => renamed_stepMoves g (List.mem_range.mp hstep) accumulator
  unfold blockMoves
  rw [List.map_append, List.map_flatMap, hsteps, renamed_foldMove g hlast, List.length_map]

theorem renamed_networkMoves (qs : List ℕ) :
    (networkMoves qs).map (NetworkMove.renamed g) = networkMoves (qs.map g) := by
  unfold networkMoves
  rw [List.map_flatMap, List.length_map]
  refine List.flatMap_congr fun highest hmem => ?_
  have hlt : highest < qs.length := by simpa using hmem
  rw [renamed_blockMoves, List.map_take, List.getElem?_map, List.getElem?_eq_getElem hlt]
  rfl

theorem renamed_parityNetwork (qs : List ℕ) (theta : Param R) :
    (parityNetwork qs theta).map (List.map (Operation.renamed g)) =
      parityNetwork (qs.map g) theta := by
  by_cases hne : qs = []
  · subst hne
    rfl
  · have hne' : qs.map g ≠ [] := by simpa using hne
    rw [parityNetwork_eq hne, parityNetwork_eq hne', List.length_map]
    cases (powerOfTwo? (qs.length - 1) : Except (Fault R) R) with
    | error f => rfl
    | ok power =>
      cases hangle : theta.div (.literal power) with
      | error f => simp [bind, Except.bind, Except.map, hangle]
      | ok angle =>
        have hgates : ((networkMoves qs).map (NetworkMove.gate angle)).map (Operation.renamed g) =
            (networkMoves (qs.map g)).map (NetworkMove.gate angle) := by
          simp only [← renamed_networkMoves, List.map_map, Function.comp_def, renamed_gate]
        simp [bind, Except.bind, Except.map, pure, Except.pure, hangle, hgates]

theorem renamed_networkNot {qs : List ℕ} (hne : qs ≠ []) :
    (networkNot qs : Except (Fault R) (Circuit R)).map (List.map (Operation.renamed g)) =
      networkNot (qs.map g) := by
  have hlast : (qs.map g).getLastD 0 = g (qs.getLastD 0) := by
    simp [List.getLastD_eq_getLast?, List.getLast?_eq_some_getLast hne]
  unfold networkNot
  rw [← renamed_parityNetwork, hlast]
  cases parityNetwork qs (.literal Scalar.pi : Param R) with
  | error f => rfl
  | ok network => simp [bind, Except.bind, Except.map, pure, Except.pure, renamed_hadamard]

theorem renamed_controlledNot (qs : List ℕ) :
    (controlledNot qs : Except (Fault R) (Circuit R)).map (List.map (Operation.renamed g)) =
      controlledNot (qs.map g) := by
  match qs with
  | [] => rfl
  | [q] => rfl
  | [a, b] => rfl
  | [a, b, t] => exact congrArg Except.ok (renamed_toffoliCircuit g a b t)
  | a :: b :: c :: t :: rest => exact renamed_networkNot g (List.cons_ne_nil a _)

/-! ### Rotations of many qubits -/

theorem renamed_parityRotation (qs : List ℕ) (theta : Param R) :
    (parityRotation qs theta).map (List.map (Operation.renamed g)) =
      parityRotation (qs.map g) theta := by
  by_cases hne : qs = []
  · subst hne
    rfl
  · have hne' : qs.map g ≠ [] := by simpa using hne
    rw [parityRotation_eq hne, parityRotation_eq hne', ← renamed_stairs_rotation g hne hne']
    rfl

theorem renamed_flipRotation (qs : List ℕ) (theta : Param R) :
    (flipRotation qs theta).map (List.map (Operation.renamed g)) =
      flipRotation (qs.map g) theta := by
  by_cases hne : qs = []
  · subst hne
    rfl
  · have hne' : qs.map g ≠ [] := by simpa using hne
    have hlayer : (qs.map (Operation.hadamard (P := Param R))).map (Operation.renamed g) =
        (qs.map g).map Operation.hadamard := by
      simp only [List.map_map, Function.comp_def, renamed_hadamard]
    rw [flipRotation_eq hne, flipRotation_eq hne', ← renamed_stairs_rotation g hne hne', ← hlayer,
      ← List.map_append, ← List.map_append]
    rfl

/-! ### The Fourier transform -/

theorem renamed_phasesTo (sign : R) (q k : ℕ) (rest : List ℕ) :
    (phasesTo sign q k rest).map (List.map (Operation.renamed g)) =
      phasesTo sign (g q) k (rest.map g) := by
  induction rest generalizing k with
  | nil => rfl
  | cons p rest ih =>
    rw [List.map_cons]
    unfold phasesTo
    rw [← ih]
    cases (powerOfTwo? k : Except (Fault R) R) with
    | error f => rfl
    | ok power =>
      cases phasesTo sign q (k + 1) rest with
      | error f => rfl
      | ok c => rfl

theorem renamed_fourierLadder (sign : R) (qs : List ℕ) :
    (fourierLadder sign qs).map (List.map (Operation.renamed g)) =
      fourierLadder sign (qs.map g) := by
  induction qs with
  | nil => rfl
  | cons q qs ih =>
    rw [List.map_cons]
    unfold fourierLadder
    rw [← ih, ← renamed_phasesTo]
    cases phasesTo sign q 1 qs with
    | error f => rfl
    | ok phases =>
      cases fourierLadder sign qs with
      | error f => rfl
      | ok c => simp [bind, Except.bind, Except.map, pure, Except.pure, renamed_hadamard]

theorem renamed_fourierCircuit (qs : List ℕ) (swaps inverse : Bool) :
    (fourierCircuit qs swaps inverse : Except (Fault R) (Circuit R)).map
        (List.map (Operation.renamed g)) =
      fourierCircuit (qs.map g) swaps inverse := by
  unfold fourierCircuit
  rw [← renamed_fourierLadder, ← renamed_reversal]
  cases fourierLadder (if inverse then -1 else 1 : R) qs with
  | error f => rfl
  | ok steps =>
    cases swaps <;> cases inverse <;>
      simp [bind, Except.bind, Except.map, pure, Except.pure]

end

end QuantumGates
