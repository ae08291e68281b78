-- The blocks that gates are built from. Each is a matrix on one qubit with orthogonal columns of
-- length one: two phases, on the diagonal or beside it, or a rotation with phases on its columns
-- or rows. The sines and cosines enter only through the sum of their squares.
import QuantumGates.Proofs.Exact.FourierUnitary

namespace QuantumGates

open CMat Finset

theorem cos_mul_self_add (x : ℝ) : Real.cos x * Real.cos x + Real.sin x * Real.sin x = 1 := by
  rw [← sq, ← sq, Real.cos_sq_add_sin_sq]

/-! ## Phases -/

section

variable {p q : Cplx ℝ}

theorem hasGram_phases (hp : p.conj * p = 1) (hq : q.conj * q = 1) :
    (table [[p, 0], [0, q]]).HasGram 2 1 := by
  refine hasGram_table ?_ ?_ ?_
  · simp [hp]
  · simp
  · simp [hq]

/-- The conjugate of a point of the unit circle lies on it. -/
theorem conj_unit (hp : p.conj * p = 1) : p.conj.conj * p.conj = 1 := by
  rw [Cplx.conj_conj, mul_comm, hp]

theorem hasGram_flip (hp : p.conj * p = 1) (hq : q.conj * q = 1) :
    (table [[0, p], [q, 0]]).HasGram 2 1 := by
  refine hasGram_table ?_ ?_ ?_
  · simp [hq]
  · simp
  · simp [hp]

theorem conj_imaginary_one_mul : (imaginary (1 : ℝ)).conj * imaginary 1 = 1 := by
  have hi := Cplx.i_mul_i
  grind

theorem conj_imaginary_neg_one_mul : (imaginary (-1 : ℝ)).conj * imaginary (-1) = 1 := by
  have hi := Cplx.i_mul_i
  grind

theorem isUnitary_diagonalOf {ds : List (Cplx ℝ)} {n : ℕ} (hn : ds.length = 2 ^ n)
    (h : ∀ z ∈ ds, z.conj * z = 1) : (diagonalOf ds).IsUnitary (2 ^ n) := by
  unfold diagonalOf
  rw [hn]
  refine Mat.isUnitary_diagonal n fun k hk => ?_
  have hlt : k < ds.length := by omega
  rw [List.getElem?_eq_getElem hlt]
  exact h _ (List.getElem_mem hlt)

end

/-! ## Rotations -/

section

variable {c s : ℝ} {p : Cplx ℝ}

theorem hasGram_rotation (h : c * c + s * s = 1) (hp : p.conj * p = 1) :
    (table (CMat.rotation c s p)).HasGram 2 1 := by
  have hi := Cplx.i_mul_i
  have hcs := Cplx.real_mul_self_add h
  refine hasGram_table ?_ ?_ ?_
  · grind
  · grind
  · grind

theorem rotationX_eq (c s : ℝ) : rotationX c s = CMat.rotation c s 1 := by
  simp [rotationX, CMat.rotation]

theorem hasGram_rotationX (h : c * c + s * s = 1) : (table (rotationX c s)).HasGram 2 1 := by
  rw [rotationX_eq]
  exact hasGram_rotation h (by simp)

/-- A real rotation with a phase on its first column. -/
theorem hasGram_phasedColumn (h : c * c + s * s = 1) (hp : p.conj * p = 1) :
    (table [[real c * p, real s], [real (-s) * p, real c]]).HasGram 2 1 := by
  have hcs := Cplx.real_mul_self_add h
  refine hasGram_table ?_ ?_ ?_
  · grind
  · grind
  · grind

/-- A real rotation with a phase on its second row. -/
theorem hasGram_phasedRow (h : c * c + s * s = 1) (hp : p.conj * p = 1) :
    (table [[real c, real s], [real (-s) * p, real c * p]]).HasGram 2 1 := by
  have hcs := Cplx.real_mul_self_add h
  refine hasGram_table ?_ ?_ ?_
  · grind
  · grind
  · grind

theorem hasGram_rotationY (h : c * c + s * s = 1) :
    (table [[real c, real (-s)], [real s, real c]]).HasGram 2 1 := by
  have hcs := Cplx.real_mul_self_add h
  refine hasGram_table ?_ ?_ ?_
  · grind
  · grind
  · grind

theorem hasGram_imaginaryRotation (h : c * c + s * s = 1) :
    (table [[real c, imaginary 1 * real s], [imaginary 1 * real s, real c]]).HasGram 2 1 := by
  have hi := Cplx.i_mul_i
  have hcs := Cplx.real_mul_self_add h
  refine hasGram_table ?_ ?_ ?_
  · grind
  · grind
  · grind

/-! ## Interactions -/

/-- A rotation with a phase on all entries. -/
theorem hasGram_phasedRotation (h : c * c + s * s = 1) (hp : p.conj * p = 1) :
    (table [[p * real c, p * minusI s], [p * minusI s, p * real c]]).HasGram 2 1 := by
  have hi := Cplx.i_mul_i
  have hcs := Cplx.real_mul_self_add h
  refine hasGram_table ?_ ?_ ?_
  · grind
  · grind
  · grind

/-- The same rotation with its rows exchanged. -/
theorem hasGram_phasedFlip (h : c * c + s * s = 1) (hp : p.conj * p = 1) :
    (table [[p * minusI s, p * real c], [p * real c, p * minusI s]]).HasGram 2 1 := by
  have hi := Cplx.i_mul_i
  have hcs := Cplx.real_mul_self_add h
  refine hasGram_table ?_ ?_ ?_
  · grind
  · grind
  · grind

/-- A pairing with a phase on the second row. -/
theorem hasGram_pairing (h : c * c + s * s = 1) (hp : p.conj * p = 1) :
    (table [[real c, imaginary 1 * real s], [minusI s * p, real (-c) * p]]).HasGram 2 1 := by
  have hi := Cplx.i_mul_i
  have hcs := Cplx.real_mul_self_add h
  refine hasGram_table ?_ ?_ ?_
  · grind
  · grind
  · grind

end

end QuantumGates
