-- Products of gates on one qubit with any brackets. The canonical values of a product are those of
-- the factors multiplied as numbers, so the brackets do not show in them, and the product acts as
-- the circuit of its factors, the last one first.
import QuantumGates.Proofs.Circuit.Fourier
import QuantumGates.Proofs.Gate.CanonicalProduct

namespace QuantumGates

open CMat

/-! ## Products with brackets -/

/-- A product of gates with its brackets: the factors at the leaves. -/
inductive ProductTree (α : Type)
  | leaf (x : α)
  | node (l r : ProductTree α)

namespace ProductTree

/-- The factors, in order. -/
def leaves {α : Type} : ProductTree α → List α
  | leaf x => [x]
  | node l r => leaves l ++ leaves r

/-- The product as its brackets have it. -/
def product {R : Type} [Scalar R] :
    ProductTree (Operation (Param R)) → Except (Fault R) (Operation (Param R))
  | leaf op => .ok op
  | node l r => do (← product l).multiply (← product r)

end ProductTree

/-- A gate on qubit `q` whose canonical values are the numbers `c`. -/
structure Operation.HasValues (op : Operation (Param ℝ)) (q : ℕ) (c : Canonical ℝ) : Prop where
  qubit : op.singleQubit? = some q
  values : op.canonical? = some (.ok c.literals)

namespace Operation.HasValues

variable {x y : Operation (Param ℝ)} {q : ℕ} {a b : Canonical ℝ}

theorem gate (c : Canonical ℝ) (q : ℕ) : (c.literals.gate q).HasValues q c := ⟨rfl, rfl⟩

theorem multiply (hx : x.HasValues q a) (hy : y.HasValues q b) :
    x.multiply y = .ok ((a * b).literals.gate q) := by
  unfold Operation.multiply
  rw [hx.qubit, hx.values, hy.qubit, hy.values]
  show (if q ≠ q then _ else _) = _
  rw [if_neg (not_not.mpr rfl)]
  exact congrArg (fun c => Except.ok (Canonical.gate c q)) (a.literals_mul b)

end Operation.HasValues

/-- The brackets of a product do not show in its values. From two factors on it is the general gate
with these values. -/
theorem ProductTree.product_hasValues {q : ℕ} {f : Operation (Param ℝ) → Canonical ℝ}
    (t : ProductTree (Operation (Param ℝ))) (h : ∀ g ∈ t.leaves, g.HasValues q (f g)) :
    ∃ op, t.product = .ok op ∧ op.HasValues q (t.leaves.map f).prod ∧
      (2 ≤ t.leaves.length → op = (t.leaves.map f).prod.literals.gate q) := by
  induction t with
  | leaf g =>
    have hg := h g (List.mem_singleton_self g)
    refine ⟨g, rfl, ?_, fun hlength => ?_⟩
    · simpa [leaves] using hg
    · simp [leaves] at hlength
  | node l r ihl ihr =>
    obtain ⟨x, hx, hxvalues, -⟩ := ihl fun g hg => h g (List.mem_append_left _ hg)
    obtain ⟨y, hy, hyvalues, -⟩ := ihr fun g hg => h g (List.mem_append_right _ hg)
    refine ⟨_, ?_, ?_, fun _ => rfl⟩
    · rw [product, hx, hy]
      simp only [leaves, List.map_append, List.prod_append]
      exact hxvalues.multiply hyvalues
    · exact .gate _ q

/-! ## Factors -/

section

variable {op : Operation (Param ℝ)} {q : ℕ}

/-- The canonical values of a gate without free parameters are numbers. -/
theorem Operation.exists_hasValues (hq : op.singleQubit? = some q)
    (hp : op.isParametrized = false) : ∃ c, op.HasValues q c := by
  obtain ⟨k, args, rfl⟩ := exists_single hq
  by_cases hk : k = .general
  · subst hk
    obtain ⟨p, ar | _, ai | _, br | _, bi | _, phase | _, ⟨⟩⟩ := args <;> cases hp
    exact ⟨⟨ar, ai, br, bi, phase⟩, hq, rfl⟩
  · obtain ⟨c, hform⟩ := k.exists_form (fun _ => .error .undefined) le_rfl args hk hp
    exact ⟨c, hq, congrArg some hform.values⟩

/-- If a gate has a matrix, its canonical values make it. -/
theorem Operation.HasValues.matrix_eq_form {c : Canonical ℝ} (h : op.HasValues q c)
    (hp : op.isParametrized = false) {evaluate : String → Except (Fault ℝ) ℝ} {tolerance : ℝ}
    (ht : 0 ≤ tolerance) {u : CMat ℝ}
    (hu : op.matrix? (Param.value evaluate) tolerance = some (.ok u)) : u = c.form := by
  obtain ⟨k, args, rfl⟩ := exists_single h.qubit
  have hvalues : k.canonical args = .ok c.literals := Option.some.inj h.values
  have hmatrix : k.matrix (Param.value evaluate) tolerance args = .ok u := Option.some.inj hu
  by_cases hk : k = .general
  · subst hk
    rw [SingleKind.matrix, hvalues] at hmatrix
    exact Canonical.eq_form_of_matrix hmatrix
  · obtain ⟨d, hform⟩ := k.exists_form evaluate ht args hk hp
    have hd : c = d :=
      Canonical.literals_injective (Except.ok.inj (hvalues.symm.trans hform.values))
    rw [hd]
    exact Except.ok.inj (hmatrix.symm.trans hform.matrix)

end

/-- The factors as a circuit, the last one first, act as their product. -/
theorem Circuit.unitary_reverse {value : Param ℝ → Except (Fault ℝ) ℝ} {tolerance : ℝ} {q n : ℕ}
    (hq : q < n) {f : Operation (Param ℝ) → Canonical ℝ} {gs : List (Operation (Param ℝ))}
    (h : ∀ g ∈ gs, g.qubits = [q] ∧ g.matrix? value tolerance = some (.ok (f g).form)) :
    Circuit.unitary value tolerance gs.reverse n = .ok (liftGate (gs.map f).prod.form [q] n) := by
  have hd : [q].Nodup := List.nodup_singleton q
  have hlt : ∀ p ∈ [q], p < n := by simpa using hq
  induction gs with
  | nil =>
    show Circuit.unitary value tolerance [] n = .ok (liftGate (Canonical.form 1) [q] n)
    rw [Circuit.unitary_nil, Canonical.form_one]
    exact congrArg Except.ok (liftGate_identity hd hlt).symm
  | cons g gs ih =>
    obtain ⟨hqubits, hmatrix⟩ := h g (by simp)
    have hrest := ih fun g' hg' => h g' (by simp [hg'])
    have hfirst : g.onRegister value tolerance n = .ok (liftGate (f g).form [q] n) := by
      rw [← hqubits]
      refine g.onRegister_eq_ok value tolerance hmatrix ?_ ?_ ?_
      · rw [hqubits]
        exact (f g).isSquare_form
      · rwa [hqubits]
      · rwa [hqubits]
    rw [List.reverse_cons, List.map_cons, List.prod_cons, Canonical.form_mul,
      liftGate_mul hd hlt (f g).isSquare_form (Canonical.isSquare_form _)]
    exact Circuit.unitary_append value tolerance hrest
      (Circuit.unitary_singleton value tolerance hfirst)

/-- A product of gates on one qubit does not depend on its brackets. For every list of gates without
free parameters there are canonical values `c`, and every product of the gates in their order
exists and has these values: from two factors on it is the general gate with them. The norm of `c`
is the product of the norms of the factors, and its matrix the product of their matrices. If each
factor is accepted as unitary, these are the matrices of the gates, and the circuit of the factors,
the last one first, acts on a register by the matrix of the product. -/
theorem product_of_any_brackets (gs : List (Operation (Param ℝ))) {q : ℕ}
    (hq : ∀ g ∈ gs, g.singleQubit? = some q) (hp : ∀ g ∈ gs, g.isParametrized = false) :
    ∃ (f : Operation (Param ℝ) → Canonical ℝ) (c : Canonical ℝ),
      (∀ g ∈ gs, g.canonical? = some (.ok (f g).literals)) ∧
      (∀ t : ProductTree (Operation (Param ℝ)), t.leaves = gs → ∃ op, t.product = .ok op ∧
        op.singleQubit? = some q ∧ op.canonical? = some (.ok c.literals) ∧
        (2 ≤ gs.length → op = c.literals.gate q)) ∧
      c.norm = (gs.map fun g => (f g).norm).prod ∧
      c.form = Mat.productOf 2 (gs.map fun g => (f g).form) ∧
      ∀ (evaluate : String → Except (Fault ℝ) ℝ) (tolerance : ℝ), 0 ≤ tolerance →
        (∀ g ∈ gs, ∃ u, g.matrix? (Param.value evaluate) tolerance = some (.ok u)) →
        (∀ g ∈ gs, g.matrix? (Param.value evaluate) tolerance = some (.ok (f g).form)) ∧
        (∀ n, q < n → Circuit.unitary (Param.value evaluate) tolerance gs.reverse n =
          .ok (liftGate c.form [q] n)) ∧
        (q = 0 → Circuit.unitary (Param.value evaluate) tolerance gs.reverse 1 = .ok c.form) := by
  have hexists : ∀ g, ∃ c, g ∈ gs → g.HasValues q c := by
    intro g
    by_cases hg : g ∈ gs
    · obtain ⟨c, hc⟩ := Operation.exists_hasValues (hq g hg) (hp g hg)
      exact ⟨c, fun _ => hc⟩
    · exact ⟨1, fun h => absurd h hg⟩
  choose f hf using hexists
  refine ⟨f, (gs.map f).prod, fun g hg => (hf g hg).values, ?_, ?_, ?_, ?_⟩
  · rintro t rfl
    obtain ⟨op, hop, hvalues, hgeneral⟩ := t.product_hasValues hf
    exact ⟨op, hop, hvalues.qubit, hvalues.values, hgeneral⟩
  · have hprod := map_list_prod Canonical.normHom (gs.map f)
    rw [List.map_map] at hprod
    exact hprod
  · rw [Canonical.form_prod, List.map_map]
    rfl
  · intro evaluate tolerance ht haccepted
    have hmatrix : ∀ g ∈ gs,
        g.matrix? (Param.value evaluate) tolerance = some (.ok (f g).form) := by
      intro g hg
      obtain ⟨u, hu⟩ := haccepted g hg
      rw [hu, (hf g hg).matrix_eq_form (hp g hg) ht hu]
    have hunitary : ∀ n, q < n → Circuit.unitary (Param.value evaluate) tolerance gs.reverse n =
        .ok (liftGate (gs.map f).prod.form [q] n) := fun n hn =>
      Circuit.unitary_reverse hn fun g hg =>
        ⟨Operation.qubits_of_single (hq g hg), hmatrix g hg⟩
    refine ⟨hmatrix, hunitary, ?_⟩
    rintro rfl
    rw [hunitary 1 one_pos]
    exact congrArg Except.ok (liftGate_range (n := 1) (Canonical.isSquare_form _))

/-- A rotation, a Hadamard gate and another rotation on qubit 0. -/
theorem product_of_three_factors :
    let x : Operation (Param ℝ) := ⟨.single .rotateX, 0, .literal 1, ()⟩
    let h : Operation (Param ℝ) := ⟨.single .hadamard, 0, ()⟩
    let z : Operation (Param ℝ) := ⟨.single .rotateZ, 0, .literal 2, ()⟩
    ∃ c : Canonical ℝ,
      (ProductTree.node (.leaf x) (.node (.leaf h) (.leaf z))).product =
        .ok (c.literals.gate 0) ∧
      (ProductTree.node (.node (.leaf x) (.leaf h)) (.leaf z)).product =
        .ok (c.literals.gate 0) ∧
      Circuit.unitary (Param.value fun _ => .error .undefined) 0 [z, h, x] 1 = .ok c.form := by
  intro x h z
  have hq : ∀ g ∈ [x, h, z], g.singleQubit? = some 0 := by
    simp only [List.forall_mem_cons]
    exact ⟨rfl, rfl, rfl, by simp⟩
  have hp : ∀ g ∈ [x, h, z], g.isParametrized = false := by
    simp only [List.forall_mem_cons]
    exact ⟨rfl, rfl, rfl, by simp⟩
  have haccepted : ∀ g ∈ [x, h, z], ∃ u,
      g.matrix? (Param.value fun _ => .error .undefined) 0 = some (.ok u) := by
    have hsingle : ∀ (k : SingleKind) (args : Args (Param ℝ) k.fields), k ≠ .general →
        Operation.isParametrized ⟨.single k, args⟩ = false → ∃ u,
          Operation.matrix? (Param.value fun _ => .error .undefined) 0 ⟨.single k, args⟩ =
            some (.ok u) := by
      intro k args hk hparam
      obtain ⟨c, hform⟩ := k.exists_form (fun _ => .error .undefined) le_rfl args hk hparam
      exact ⟨c.form, congrArg some hform.matrix⟩
    simp only [List.forall_mem_cons]
    exact ⟨hsingle _ _ (by decide) rfl, hsingle _ _ (by decide) rfl, hsingle _ _ (by decide) rfl,
      by simp⟩
  obtain ⟨f, c, -, htree, -, -, hcircuit⟩ := product_of_any_brackets [x, h, z] hq hp
  have hproduct : ∀ t : ProductTree (Operation (Param ℝ)), t.leaves = [x, h, z] →
      t.product = .ok (c.literals.gate 0) := by
    intro t ht
    obtain ⟨op, hop, -, -, hgeneral⟩ := htree t ht
    rw [hop, hgeneral (by simp)]
  exact ⟨c, hproduct _ rfl, hproduct _ rfl, (hcircuit _ 0 le_rfl haccepted).2.2 rfl⟩

end QuantumGates
