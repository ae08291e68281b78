-- Rectangular matrices over any type of entries. A matrix is kept row by row and read through
-- `get`; `ofFn` builds one from the formula of its entries, and `get_ofFn` says that the
-- formula is what is read back. Products add up their terms from zero, in order.
namespace QuantumGates

/-- The sum of `f 0`, …, `f (n - 1)`, from the left and from zero. -/
def sumBelow {K : Type} [Zero K] [Add K] (n : Nat) (f : Nat → K) : K :=
  Nat.fold n (fun k _ acc => acc + f k) 0

/-- A matrix, its entries row by row. -/
structure Mat (K : Type) where
  rows : Nat
  cols : Nat
  entries : Array K
  size_entries : entries.size = rows * cols

namespace Mat

variable {K : Type}

/-- The matrix with a given formula for its entries. -/
def ofFn (rows cols : Nat) (f : Nat → Nat → K) : Mat K :=
  ⟨rows, cols, Array.ofFn fun k : Fin (rows * cols) => f (k.val / cols) (k.val % cols), by simp⟩

/-- The entry in a row and a column, zero outside the matrix. -/
def get [Zero K] (m : Mat K) (r c : Nat) : K :=
  if c < m.cols then (m.entries[r * m.cols + c]?).getD 0 else 0

theorem index_lt {rows cols r c : Nat} (hr : r < rows) (hc : c < cols) :
    r * cols + c < rows * cols := by
  have h : (r + 1) * cols ≤ rows * cols := Nat.mul_le_mul_right cols hr
  rw [Nat.add_mul] at h
  omega

/-- A matrix built from a formula has the entries of the formula. -/
theorem get_ofFn [Zero K] {rows cols r c : Nat} (f : Nat → Nat → K) (hr : r < rows)
    (hc : c < cols) : (ofFn rows cols f).get r c = f r c := by
  have hk := index_lt hr hc
  have hdiv : (r * cols + c) / cols = r := by
    rw [Nat.mul_comm, Nat.mul_add_div (by omega), Nat.div_eq_of_lt hc, Nat.add_zero]
  have hmod : (r * cols + c) % cols = c := by
    rw [Nat.mul_comm, Nat.mul_add_mod, Nat.mod_eq_of_lt hc]
  simp [get, ofFn, hc, hk, hdiv, hmod]

@[simp] theorem rows_ofFn (rows cols : Nat) (f : Nat → Nat → K) : (ofFn rows cols f).rows = rows :=
  rfl

@[simp] theorem cols_ofFn (rows cols : Nat) (f : Nat → Nat → K) : (ofFn rows cols f).cols = cols :=
  rfl

/-- The lengths of a matrix. -/
def shape (m : Mat K) : List Nat := [m.rows, m.cols]

/-- One on the diagonal and zero elsewhere. -/
def unitEntry [Zero K] [One K] (r c : Nat) : K := if r = c then 1 else 0

def identity [Zero K] [One K] (n : Nat) : Mat K := ofFn n n unitEntry

/-- The square matrix with a given diagonal. -/
def diagonal [Zero K] (n : Nat) (f : Nat → K) : Mat K :=
  ofFn n n fun r c => if r = c then f r else 0

def mul [Zero K] [Add K] [Mul K] (a b : Mat K) : Mat K :=
  ofFn a.rows b.cols fun r c => sumBelow a.cols fun k => a.get r k * b.get k c

/-- Every entry times `k`, the factor on the left. -/
def scale [Zero K] [Mul K] (k : K) (m : Mat K) : Mat K :=
  ofFn m.rows m.cols fun r c => k * m.get r c

/-- Rows and columns exchanged, every entry sent through `f`. -/
def transposeWith [Zero K] (f : K → K) (m : Mat K) : Mat K :=
  ofFn m.cols m.rows fun r c => f (m.get c r)

/-- The square matrix with the given rows. -/
def ofRows [Zero K] (rows : List (List K)) : Mat K :=
  ofFn rows.length (rows.headD []).length fun r c => ((rows[r]?).getD [])[c]?.getD 0

end Mat

end QuantumGates
