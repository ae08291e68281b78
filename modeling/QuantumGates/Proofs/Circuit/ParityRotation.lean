-- The circuit of the rotation by parity. Flips from each listed qubit to the next leave in every
-- qubit the parity of the bits up to it, so the last one holds the parity of all bits when the
-- rotation reads it, and the same flips in reversed order give the bits back. The gate counts the
-- ones of a packed index instead, which is the same parity.
import QuantumGates.Proofs.Circuit.ThreeQubits

namespace QuantumGates

open CMat

/-! ## Sequences of flips -/

/-- A basis state after controlled flips, each given by its control and its target. -/
def flipAlong (n : ℕ) (flips : List (ℕ × ℕ)) (x : ℕ) : ℕ :=
  flips.foldl (fun y flip => flipIf n flip.1 flip.2 y) x

/-- The circuit of controlled flips. -/
def flipCircuit {R : Type} (flips : List (ℕ × ℕ)) : Circuit R :=
  flips.map fun flip => .cnot flip.1 flip.2

/-- The flips name qubits of a register of `n`, and none controls itself. -/
def ValidFlips (n : ℕ) (flips : List (ℕ × ℕ)) : Prop :=
  ∀ flip ∈ flips, flip.1 < n ∧ flip.2 < n ∧ flip.1 ≠ flip.2

section

variable {n : ℕ} {flips : List (ℕ × ℕ)}

theorem flipAlong_append (n : ℕ) (as bs : List (ℕ × ℕ)) (x : ℕ) :
    flipAlong n (as ++ bs) x = flipAlong n bs (flipAlong n as x) := List.foldl_append ..

theorem ValidFlips.tail {flip : ℕ × ℕ} (h : ValidFlips n (flip :: flips)) : ValidFlips n flips :=
  fun next hnext => h next (by simp [hnext])

theorem ValidFlips.reverse (h : ValidFlips n flips) : ValidFlips n flips.reverse :=
  fun flip hmem => h flip (List.mem_reverse.mp hmem)

/-- The same flips in reversed order undo what was done. -/
theorem flipAlong_reverse (h : ValidFlips n flips) (x : ℕ) :
    flipAlong n flips.reverse (flipAlong n flips x) = x := by
  induction flips generalizing x with
  | nil => rfl
  | cons flip flips ih =>
    obtain ⟨hcontrol, htarget, hne⟩ := h flip (by simp)
    rw [List.reverse_cons, flipAlong_append]
    show flipIf n flip.1 flip.2
      (flipAlong n flips.reverse (flipAlong n flips (flipIf n flip.1 flip.2 x))) = x
    rw [ih h.tail, flipIf_flipIf hcontrol htarget hne]

/-- Flips move the basis states. -/
theorem unitary_flipCircuit (value : Param ℝ → Except (Fault ℝ) ℝ) (tolerance : ℝ)
    (h : ValidFlips n flips) :
    ∃ u, Circuit.unitary value tolerance (flipCircuit flips) n = .ok u ∧
      u.ActsOnBasis n (flipAlong n flips) fun _ => 1 := by
  induction flips with
  | nil => exact ⟨_, Circuit.unitary_nil value tolerance n, Mat.actsOnBasis_identity n⟩
  | cons flip flips ih =>
    obtain ⟨hcontrol, htarget, hne⟩ := h flip (by simp)
    obtain ⟨u, hu, hact⟩ := ih h.tail
    have hgate := onRegister_cnot value tolerance hcontrol htarget hne
    refine ⟨_, Circuit.unitary_cons value tolerance hgate hu, ?_⟩
    exact (hact.mul (actsOnBasis_flipGate hcontrol htarget hne)).congr (fun _ _ => rfl)
      fun _ _ => mul_one _

end

/-! ## The staircase -/

/-- The flips from each qubit to the next. -/
def stairs (qs : List ℕ) : List (ℕ × ℕ) := qs.zip qs.tail

theorem staircase_eq_flipCircuit {R : Type} [Scalar R] (qs : List ℕ) :
    (staircase qs : Circuit R) = flipCircuit (stairs qs) := by
  fun_induction staircase qs with
  | case1 a b rest ih => exact congrArg (Operation.cnot a b :: ·) ih
  | case2 qs hshort =>
    match qs, hshort with
    | [], _ => rfl
    | [a], _ => rfl
    | a :: b :: rest, hshort => exact absurd rfl (hshort a b rest)

section

variable {n : ℕ}

theorem validFlips_stairs {qs : List ℕ} (hd : qs.Nodup) (hq : ∀ q ∈ qs, q < n) :
    ValidFlips n (stairs qs) := by
  rintro ⟨a, b⟩ hmem
  obtain ⟨i, hi, heq⟩ := List.getElem_of_mem hmem
  have hlen : i + 1 < qs.length := by
    simp only [stairs, List.length_zip, List.length_tail] at hi
    omega
  simp only [stairs, List.getElem_zip, List.getElem_tail, Prod.mk.injEq] at heq
  obtain ⟨rfl, rfl⟩ := heq
  refine ⟨hq _ (List.getElem_mem _), hq _ (List.getElem_mem _), fun hsame => ?_⟩
  have := hd.getElem_inj_iff.mp hsame
  omega

/-- Behind the staircase the last qubit holds the parity of all listed bits. -/
theorem bitAt_getLast_stairs {qs : List ℕ} (hne : qs ≠ []) (hd : qs.Nodup)
    (hq : ∀ q ∈ qs, q < n) (x : ℕ) :
    bitAt n (qs.getLast hne) (flipAlong n (stairs qs) x) = onesCount n qs x % 2 := by
  -- The first flip adds the first bit to the second one, and the rest of the staircase gathers
  -- the bits from there on.
  induction qs generalizing x with
  | nil => exact absurd rfl hne
  | cons a qs ih =>
    cases qs with
    | nil =>
      have hbit := bitAt_lt n a x
      have hcount : onesCount n [a] x = bitAt n a x := by simp [onesCount]
      rw [hcount, Nat.mod_eq_of_lt hbit]
      rfl
    | cons b rest =>
      have ha : a < n := hq a (by simp)
      have hb : b < n := hq b (by simp)
      have hrest : ∀ q ∈ rest, q < n := fun q hmem => hq q (by simp [hmem])
      have hnotMem : b ∉ rest := (List.nodup_cons.mp (List.nodup_cons.mp hd).2).1
      have hsame : onesCount n rest (flipIf n a b x) = onesCount n rest x := by
        unfold onesCount
        congr 1
        refine List.map_congr_left fun q hmem => ?_
        rw [bitAt_flipIf hb (hrest q hmem), if_neg]
        intro heq
        exact hnotMem (heq ▸ hmem)
      have hcons : ∀ (q : ℕ) (qs : List ℕ) (y : ℕ),
          onesCount n (q :: qs) y = bitAt n q y + onesCount n qs y := fun q qs y => by
        simp [onesCount]
      rw [List.getLast_cons (by simp)]
      show bitAt n _ (flipAlong n (stairs (b :: rest)) (flipIf n a b x)) = _
      rw [ih (by simp) (List.nodup_cons.mp hd).2 (fun q hmem => hq q (by simp [hmem])), hcons,
        hcons, hcons, hsame, bitAt_flipIf hb hb, if_pos rfl]
      omega

end

/-! ## The rotation -/

/-- The phase of a rotation by `y` for a bit or a count of bits: half of `y` back if it is even,
and half of `y` forward if it is odd. -/
noncomputable def parityWeight (y : ℝ) (count : ℕ) : Cplx ℝ :=
  if count % 2 = 0 then .cis (-(fraction 1 2 * y)) else .cis (fraction 1 2 * y)

theorem fraction_one_two_mul (y : ℝ) : fraction 1 2 * y = y / 2 := by
  unfold fraction
  rw [Exact.whole_eq, Exact.whole_eq]
  push_cast
  ring

theorem parityWeight_mod (y : ℝ) (count : ℕ) :
    parityWeight y (count % 2) = parityWeight y count := by
  unfold parityWeight
  rw [Nat.mod_mod]

theorem parityWeight_eq_exp (y : ℝ) (count : ℕ) :
    parityWeight y count = Cplx.equivComplex.symm
      (Complex.exp ((if count % 2 = 0 then -(y / 2) else y / 2 : ℝ) * Complex.I)) := by
  unfold parityWeight
  rw [fraction_one_two_mul]
  split <;> rw [Cplx.cis_eq_exp]

section

variable {n : ℕ} (value : Param ℝ → Except (Fault ℝ) ℝ) (tolerance : ℝ)

/-- The rotation around the third axis on a register. -/
noncomputable def rotationGate (n q : ℕ) (y : ℝ) : CMat ℝ :=
  liftGate (table [[(Cplx.cis (fraction 1 2 * y)).conj, 0], [0, .cis (fraction 1 2 * y)]]) [q] n

theorem onRegister_rotateZ {q : ℕ} {theta : Param ℝ} {y : ℝ} (hy : value theta = .ok y)
    (hq : q < n) :
    (Operation.rotateZ q theta).onRegister value tolerance n = .ok (rotationGate n q y) := by
  refine Operation.onRegister_eq_ok value tolerance (.rotateZ q theta)
    (m := table [[(Cplx.cis (fraction 1 2 * y)).conj, 0], [0, .cis (fraction 1 2 * y)]])
    ?_ ⟨rfl, rfl⟩ ?_ ?_
  · show some (do
      let phase := Cplx.cis (fraction 1 2 * (← value theta))
      return table [[phase.conj, 0], [0, phase]]) = _
    rw [hy]
    rfl
  · exact List.nodup_singleton q
  · show ∀ s ∈ [q], s < n
    simpa using hq

theorem actsOnBasis_rotationGate {q : ℕ} (y : ℝ) :
    (rotationGate n q y).ActsOnBasis n (fun c => c) fun c => parityWeight y (bitAt n q c) := by
  refine actsOnBasis_of_weights fun f r _ => ?_
  have hsame := setBit_bitAt n q r
  have hbit := bitAt_lt n q r
  rw [spreadRow_one, get_table hbit (by show 0 < 2; omega), get_table hbit (by show 1 < 2; omega),
    Cplx.conj_cis]
  unfold parityWeight
  rcases bitAt_cases n q r with h | h <;> rw [h] at hsame ⊢
  · simp [hsame]
  · simp [hsame]

/-- The rotation between the staircase and its reverse leaves every basis state in place and
turns it by the parity of the listed bits. -/
theorem unitary_stairs_rotation {qs : List ℕ} (hne : qs ≠ []) (hd : qs.Nodup)
    (hq : ∀ q ∈ qs, q < n) {theta : Param ℝ} {y : ℝ} (hy : value theta = .ok y) :
    Circuit.unitary value tolerance
        (flipCircuit (stairs qs) ++
          .rotateZ (qs.getLast hne) theta :: flipCircuit (stairs qs).reverse) n =
      .ok (Mat.diagonal (2 ^ n) fun x => parityWeight y (onesCount n qs x)) := by
  have hvalid := validFlips_stairs hd hq
  obtain ⟨u, hu, hactu⟩ := unitary_flipCircuit value tolerance hvalid
  obtain ⟨v, hv, hactv⟩ := unitary_flipCircuit value tolerance hvalid.reverse
  have hgate := onRegister_rotateZ value tolerance hy (hq _ (List.getLast_mem hne))
  have hcircuit := Circuit.unitary_append value tolerance hu
    (Circuit.unitary_cons value tolerance hgate hv)
  have hact := (hactv.mul (actsOnBasis_rotationGate (n := n) (q := qs.getLast hne) y)).mul hactu
  rw [hcircuit, hact.eq_diagonal]
  · intro x _
    exact flipAlong_reverse hvalid x
  · intro x _
    rw [one_mul, mul_one, bitAt_getLast_stairs hne hd hq, parityWeight_mod]

end

/-! ## The gate -/

/-- The circuit is the rotation between the staircase and its reverse. -/
theorem parityRotation_eq {R : Type} [Scalar R] {qs : List ℕ} (hne : qs ≠ []) (theta : Param R) :
    parityRotation qs theta = .ok (flipCircuit (stairs qs) ++
      .rotateZ (qs.getLast hne) theta :: flipCircuit (stairs qs).reverse) := by
  have hlen : ¬ qs.length < 1 := by
    have := List.length_pos_iff.mpr hne
    omega
  have hlast : qs.getLastD 0 = qs.getLast hne := by
    rw [List.getLastD_eq_getLast?, List.getLast?_eq_some_getLast hne, Option.getD_some]
  unfold parityRotation requireQubits
  rw [if_neg hlen]
  show Except.ok (staircase qs ++ .rotateZ (qs.getLastD 0) theta :: (staircase qs).reverse) = _
  rw [staircase_eq_flipCircuit, hlast]
  unfold flipCircuit
  rw [List.map_reverse]

/-- The gate weighs each state by the parity of its ones. -/
theorem matrix_parityRotation {value : Param ℝ → Except (Fault ℝ) ℝ} {qs : List ℕ}
    {theta : Param ℝ} {y : ℝ} (hy : value theta = .ok y) :
    RegisterKind.zz.matrix value (qs, theta, ()) =
      .ok (Mat.diagonal (2 ^ qs.length) fun k => parityWeight y (bitCount k)) := by
  show (do
    let phase := Cplx.cis (-fraction 1 2 * (← value theta))
    return Mat.diagonal (2 ^ qs.length) fun k =>
      if bitCount k % 2 = 0 then phase else phase.conj) = _
  rw [hy]
  show Except.ok (Mat.diagonal (2 ^ qs.length) fun k =>
    if bitCount k % 2 = 0 then Cplx.cis (-fraction 1 2 * y)
      else (Cplx.cis (-fraction 1 2 * y)).conj) = _
  rw [neg_mul, Cplx.conj_cis, neg_neg]
  rfl

/-- The rotation by parity on distinct qubits, in any order: its circuit is a staircase of flips,
one rotation on the last qubit, and the staircase back. At the rotation the last qubit holds the
parity of all listed bits, and behind it every basis state is restored. The circuit has the matrix
of the gate, which turns the states with an even and with an odd count of ones against each
other. -/
theorem parityRotation_circuit_eq_gate {qubits : List ℕ} (hne : qubits ≠ [])
    (hd : qubits.Nodup) :
    (∀ (R : Type) [Scalar R] (theta : Param R),
      Operation.circuit? ⟨.register .zz, qubits, theta, ()⟩ =
        some (.ok (flipCircuit (stairs qubits) ++
          .rotateZ (qubits.getLast hne) theta :: flipCircuit (stairs qubits).reverse))) ∧
    ∀ n, (∀ q ∈ qubits, q < n) →
      (∀ x, bitAt n (qubits.getLast hne) (flipAlong n (stairs qubits) x) =
          (qubits.map fun q => bitAt n q x).sum % 2 ∧
        flipAlong n (stairs qubits).reverse (flipAlong n (stairs qubits) x) = x) ∧
      ∀ (value : Param ℝ → Except (Fault ℝ) ℝ) (theta : Param ℝ) (y tolerance : ℝ),
        value theta = .ok y →
        let gate : Operation (Param ℝ) := ⟨.register .zz, qubits, theta, ()⟩
        let turn (count : ℕ) : Cplx ℝ := Cplx.equivComplex.symm
          (Complex.exp ((if count % 2 = 0 then -(y / 2) else y / 2 : ℝ) * Complex.I))
        ∃ c u v, gate.circuit? = some (.ok c) ∧
          gate.matrix? value tolerance = some (.ok u) ∧
          u = Mat.diagonal (2 ^ qubits.length) (fun k => turn (Nat.digits 2 k).sum) ∧
          c.unitary value tolerance n = .ok v ∧
          v = Mat.diagonal (2 ^ n) (fun x => turn (qubits.map fun q => bitAt n q x).sum) ∧
          gate.onRegister value tolerance n = .ok v ∧
          (embed u qubits n : Except (Fault ℝ) (CMat ℝ)) = .ok v ∧
          (qubits = List.range n → v = u) := by
  refine ⟨fun R _ theta => congrArg some (parityRotation_eq hne theta), fun n hq => ⟨?_, ?_⟩⟩
  · intro x
    exact ⟨bitAt_getLast_stairs hne hd hq x, flipAlong_reverse (validFlips_stairs hd hq) x⟩
  intro value theta y tolerance hy gate turn
  have hturn : ∀ count, parityWeight y count = turn count := parityWeight_eq_exp y
  have hsq := Mat.isSquare_diagonal (2 ^ qubits.length) fun k => parityWeight y (bitCount k)
  have hqubits : gate.qubits = qubits := List.append_nil qubits
  have hmatrix : gate.matrix? value tolerance = some (.ok _) :=
    congrArg some (matrix_parityRotation hy)
  have hlift : liftGate (Mat.diagonal (2 ^ qubits.length) fun k => parityWeight y (bitCount k))
      qubits n = Mat.diagonal (2 ^ n) fun x => parityWeight y (onesCount n qubits x) := by
    rw [liftGate_diagonal _ hd hq]
    simp only [bitCount_packBits]
  have hgate := Operation.onRegister_eq_ok (n := n) value tolerance gate hmatrix
    (by rwa [hqubits]) (by rwa [hqubits]) (by rwa [hqubits])
  rw [hqubits, hlift] at hgate
  have hembed := embed_eq_ok (R := ℝ) hsq hd hq
  rw [hlift] at hembed
  refine ⟨_, _, _, congrArg some (parityRotation_eq hne theta), hmatrix, ?_,
    unitary_stairs_rotation value tolerance hne hd hq hy, ?_, hgate, hembed, ?_⟩
  · congr 1
    funext k
    rw [hturn]
    exact congrArg turn (bitCount_go_eq le_rfl)
  · congr 1
    funext x
    exact hturn _
  · intro hrange
    rw [← hlift]
    exact liftGate_of_eq_range hsq hrange

/-- Three qubits of a register of four, listed out of order, with a third of half a turn. -/
theorem parityRotation_circuit_on_three :
    ∃ c v, Operation.circuit? (R := ℝ)
        ⟨.register .zz, [2, 0, 3], .literal (Real.pi / 3), ()⟩ = some (.ok c) ∧
      c.unitary (Param.value fun _ => .error .undefined) 0 4 = .ok v ∧
      v = Mat.diagonal (2 ^ 4) fun x => Cplx.equivComplex.symm (Complex.exp
        ((if ([2, 0, 3].map fun q => bitAt 4 q x).sum % 2 = 0 then -(Real.pi / 3 / 2)
          else Real.pi / 3 / 2 : ℝ) * Complex.I)) := by
  obtain ⟨c, -, v, hc, -, -, hv, hdiagonal, -⟩ :=
    ((parityRotation_circuit_eq_gate (by decide : [2, 0, 3] ≠ []) (by decide)).2 4
      (by decide)).2 (Param.value fun _ => .error .undefined) (.literal (Real.pi / 3)) _ 0 rfl
  exact ⟨c, v, hc, hv, hdiagonal⟩

end QuantumGates
