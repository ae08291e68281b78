-- The product of gates that are lifted to a register one after another. A gate is given by its
-- matrix, or the fault in its place, and its qubits. The product of a sequence is that of its
-- parts, and placing every gate of a small register in a large one places their product.
import QuantumGates.Proofs.Register.Lift

namespace QuantumGates

/-- A matrix or the fault in its place, and the qubits that it acts on. -/
abbrev PlacedGate (R K : Type) := Except (Fault R) (Mat K) × List ℕ

variable {R K : Type}

/-! ## Lifting without faults -/

theorem embed_eq_ok [Zero K] [One K] [Add K] [Mul K] {m : Mat K} {qs : List ℕ} {n : ℕ} (hm : m.IsSquare (2 ^ qs.length))
    (hd : qs.Nodup) (hq : ∀ q ∈ qs, q < n) :
    (embed m qs n : Except (Fault R) (Mat K)) = .ok (liftGate m qs n) := by
  have hany : (qs.any fun q => decide (n ≤ q)) = false := by
    rw [List.any_eq_false]
    intro q hmem
    have := hq q hmem
    simpa using this
  unfold embed
  simp [hm.1, hm.2, hd, hany]

variable [Semiring K]

/-- A gate on distinct qubits of the register can only be refused for its size. -/
theorem embed_eq {m : Mat K} {qs : List ℕ} {n : ℕ} (hd : qs.Nodup) (hq : ∀ q ∈ qs, q < n) :
    (embed m qs n : Except (Fault R) (Mat K)) =
      if m.rows ≠ 2 ^ qs.length ∨ m.cols ≠ 2 ^ qs.length then
        .error (.matrixShape m.shape qs.length)
      else .ok (liftGate m qs n) := by
  by_cases hm : m.IsSquare (2 ^ qs.length)
  · rw [embed_eq_ok hm hd hq, if_neg]
    rintro (h | h)
    · exact h hm.1
    · exact h hm.2
  · have hne : m.rows ≠ 2 ^ qs.length ∨ m.cols ≠ 2 ^ qs.length := by
      by_contra hno
      rw [not_or, not_not, not_not] at hno
      exact hm hno
    rw [if_pos hne]
    unfold embed
    simp only [Nat.pow_eq]
    rw [if_pos hne]

/-- A gate that is lifted acts on distinct qubits of the register. -/
theorem embed_eq_ok_iff {m u : Mat K} {qs : List ℕ} {n : ℕ} :
    (embed m qs n : Except (Fault R) (Mat K)) = .ok u ↔
      m.IsSquare (2 ^ qs.length) ∧ qs.Nodup ∧ (∀ q ∈ qs, q < n) ∧ u = liftGate m qs n := by
  constructor
  · intro h
    unfold embed at h
    simp only [Nat.pow_eq] at h
    split at h
    · cases h
    · split at h
      · cases h
      · split at h
        · cases h
        · rename_i hshape hd hany
          rw [not_or, not_not, not_not] at hshape
          simp only [List.any_eq_true, decide_eq_true_eq, not_exists, not_and, not_le] at hany
          cases h
          exact ⟨hshape, not_not.mp hd, hany, rfl⟩
  · rintro ⟨hm, hd, hq, rfl⟩
    exact embed_eq_ok hm hd hq

theorem isSquare_of_embed {m u : Mat K} {qs : List ℕ} {n : ℕ}
    (h : (embed m qs n : Except (Fault R) (Mat K)) = .ok u) : u.IsSquare (2 ^ n) := by
  obtain ⟨-, -, -, rfl⟩ := embed_eq_ok_iff.mp h
  exact isSquare_liftGate m qs n

/-! ## Products -/

namespace PlacedGate

/-- The lifted matrix of a gate. -/
def lift (g : PlacedGate R K) (n : ℕ) : Except (Fault R) (Mat K) := do embed (← g.1) g.2 n

/-- The product of lifted gates after what `u` did. -/
def productFrom (n : ℕ) : Mat K → List (PlacedGate R K) → Except (Fault R) (Mat K)
  | u, [] => .ok u
  | u, g :: rest => do productFrom n ((← g.lift n).mul u) rest

/-- The product of lifted gates, later ones on the left. -/
def product (n : ℕ) (gs : List (PlacedGate R K)) : Except (Fault R) (Mat K) :=
  productFrom n (Mat.identity (2 ^ n)) gs

theorem isSquare_lift {g : PlacedGate R K} {n : ℕ} {m : Mat K} (h : g.lift n = .ok m) :
    m.IsSquare (2 ^ n) := by
  obtain ⟨e, qs⟩ := g
  cases e with
  | error f => cases h
  | ok m' => exact isSquare_of_embed h

theorem productFrom_cons {g : PlacedGate R K} {n : ℕ} {m : Mat K} (h : g.lift n = .ok m)
    (u : Mat K) (gs : List (PlacedGate R K)) :
    productFrom n u (g :: gs) = productFrom n (m.mul u) gs := by
  rw [productFrom, h]
  rfl

theorem productFrom_cons_error {g : PlacedGate R K} {n : ℕ} {f : Fault R}
    (h : g.lift n = .error f) (u : Mat K) (gs : List (PlacedGate R K)) :
    productFrom n u (g :: gs) = .error f := by
  rw [productFrom, h]
  rfl

theorem isSquare_productFrom {n : ℕ} {gs : List (PlacedGate R K)} {u v : Mat K}
    (hu : u.IsSquare (2 ^ n)) (h : productFrom n u gs = .ok v) : v.IsSquare (2 ^ n) := by
  induction gs generalizing u with
  | nil =>
    cases h
    exact hu
  | cons g gs ih =>
    cases hg : g.lift n with
    | error f =>
      rw [productFrom_cons_error hg] at h
      cases h
    | ok m =>
      rw [productFrom_cons hg] at h
      exact ih ((isSquare_lift hg).mul hu) h

theorem isSquare_product {n : ℕ} {gs : List (PlacedGate R K)} {v : Mat K}
    (h : product n gs = .ok v) : v.IsSquare (2 ^ n) :=
  isSquare_productFrom (Mat.isSquare_identity _) h

/-- What was done before is a factor on the right. -/
theorem productFrom_eq {n : ℕ} {gs : List (PlacedGate R K)} {u : Mat K}
    (hu : u.IsSquare (2 ^ n)) : productFrom n u gs = (product n gs).map fun v => v.mul u := by
  induction gs generalizing u with
  | nil =>
    show Except.ok u = .ok ((Mat.identity (2 ^ n)).mul u)
    rw [Mat.identity_mul hu]
  | cons g gs ih =>
    unfold product
    cases hg : g.lift n with
    | error f =>
      rw [productFrom_cons_error hg, productFrom_cons_error hg]
      rfl
    | ok m =>
      have hm := isSquare_lift hg
      rw [productFrom_cons hg, productFrom_cons hg, Mat.mul_identity hm, ih (hm.mul hu), ih hm]
      cases hv : product n gs with
      | error f => rfl
      | ok v =>
        show Except.ok (v.mul (m.mul u)) = .ok ((v.mul m).mul u)
        rw [Mat.assoc_of_isSquare (isSquare_product hv) hm hu]

theorem productFrom_append (n : ℕ) (u : Mat K) (gs hs : List (PlacedGate R K)) :
    productFrom n u (gs ++ hs) = (productFrom n u gs).bind fun v => productFrom n v hs := by
  induction gs generalizing u with
  | nil => rfl
  | cons g gs ih =>
    rw [List.cons_append]
    cases hg : g.lift n with
    | error f =>
      rw [productFrom_cons_error hg, productFrom_cons_error hg]
      rfl
    | ok m => rw [productFrom_cons hg, productFrom_cons hg, ih]

/-- The product of one sequence after another. -/
theorem product_append {n : ℕ} {gs hs : List (PlacedGate R K)} {u v : Mat K}
    (hu : product n gs = .ok u) (hv : product n hs = .ok v) :
    product n (gs ++ hs) = .ok (v.mul u) := by
  unfold product at hu ⊢
  rw [productFrom_append, hu]
  show productFrom n u hs = _
  rw [productFrom_eq (isSquare_product hu), hv]
  rfl

/-- The product of a single gate. -/
theorem product_singleton {g : PlacedGate R K} {n : ℕ} {m : Mat K} (h : g.lift n = .ok m) :
    product n [g] = .ok m := by
  unfold product
  rw [productFrom_cons h, Mat.mul_identity (isSquare_lift h)]
  rfl

/-- The product of a gate and the sequence after it. -/
theorem product_cons {g : PlacedGate R K} {gs : List (PlacedGate R K)} {n : ℕ} {m u : Mat K}
    (hm : g.lift n = .ok m) (hu : product n gs = .ok u) : product n (g :: gs) = .ok (u.mul m) :=
  product_append (product_singleton hm) hu

/-- A product exists just when the gate and the sequence after it have theirs. -/
theorem product_cons_eq_ok_iff {g : PlacedGate R K} {gs : List (PlacedGate R K)} {n : ℕ} {u : Mat K} :
    product n (g :: gs) = .ok u ↔
      ∃ m v, g.lift n = .ok m ∧ product n gs = .ok v ∧ u = v.mul m := by
  constructor
  · intro h
    cases hg : g.lift n with
    | error f =>
      unfold product at h
      rw [productFrom_cons_error hg] at h
      cases h
    | ok m =>
      have hm := isSquare_lift hg
      unfold product at h
      rw [productFrom_cons hg, Mat.mul_identity hm, productFrom_eq hm] at h
      cases hv : product n gs with
      | error f =>
        rw [hv] at h
        cases h
      | ok v =>
        rw [hv] at h
        cases h
        exact ⟨m, v, rfl, rfl, rfl⟩
  · rintro ⟨m, v, hm, hv, rfl⟩
    exact product_cons hm hv

/-! ## Small registers in large ones -/

/-- A gate of a small register on the qubits of a large one. -/
def place (qs : List ℕ) (g : PlacedGate R K) : PlacedGate R K := (g.1, placed qs g.2)

/-- A gate of a small register has the same faults in a large one, and its lifted matrix is
that of the small register lifted. -/
theorem lift_place {qs : List ℕ} {n : ℕ} (hd : qs.Nodup) (hq : ∀ q ∈ qs, q < n)
    {g : PlacedGate R K} (hg : g.2.Nodup) (hlt : ∀ p ∈ g.2, p < qs.length) :
    (g.place qs).lift n = (g.lift qs.length).map fun m => liftGate m qs n := by
  obtain ⟨e, ps⟩ := g
  cases e with
  | error f => rfl
  | ok m =>
    simp only at hg hlt
    show embed m (placed qs ps) n = (embed m ps qs.length).map fun m => liftGate m qs n
    rw [embed_eq (nodup_placed hd hg hlt) (placed_lt hq hlt), embed_eq hg hlt, length_placed]
    split
    · rfl
    · rw [← liftGate_liftGate hd hq hg hlt]
      rfl

theorem productFrom_place {qs : List ℕ} {n : ℕ} (hd : qs.Nodup) (hq : ∀ q ∈ qs, q < n)
    {gs : List (PlacedGate R K)} (hgs : ∀ g ∈ gs, g.2.Nodup ∧ ∀ p ∈ g.2, p < qs.length)
    {u : Mat K} (hu : u.IsSquare (2 ^ qs.length)) :
    productFrom n (liftGate u qs n) (gs.map (place qs)) =
      (productFrom qs.length u gs).bind fun v => embed v qs n := by
  induction gs generalizing u with
  | nil => exact (embed_eq_ok hu hd hq).symm
  | cons g gs ih =>
    have hg := hgs g (by simp)
    have hlift := lift_place hd hq hg.1 hg.2
    rw [List.map_cons]
    cases hm : g.lift qs.length with
    | error f =>
      rw [hm] at hlift
      rw [productFrom_cons_error hlift, productFrom_cons_error hm]
      rfl
    | ok m =>
      have hsq := isSquare_lift hm
      rw [hm] at hlift
      rw [productFrom_cons hlift, productFrom_cons hm, ← liftGate_mul hd hq hsq hu]
      exact ih (fun g' hg' => hgs g' (by simp [hg'])) (hsq.mul hu)

/-- The product of placed gates is the placed product. -/
theorem product_place {qs : List ℕ} {n : ℕ} (hd : qs.Nodup) (hq : ∀ q ∈ qs, q < n)
    {gs : List (PlacedGate R K)} (hgs : ∀ g ∈ gs, g.2.Nodup ∧ ∀ p ∈ g.2, p < qs.length) :
    product n (gs.map (place qs)) = (product qs.length gs).bind fun v => embed v qs n := by
  unfold product
  rw [← liftGate_identity hd hq]
  exact productFrom_place hd hq hgs (Mat.isSquare_identity _)

end PlacedGate

end QuantumGates
