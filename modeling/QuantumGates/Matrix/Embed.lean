-- Lifting a gate into a register. Qubit 0 of a register of n qubits is the most significant
-- bit of a basis index, and the first listed qubit of a gate the most significant bit of an
-- index of its matrix. An entry of the lifted matrix is that of the gate at the listed bits,
-- and the other bits of row and column must agree: each row of the gate is added up against
-- the rows of the identity that differ in the listed bits only.
import QuantumGates.Fault
import QuantumGates.Matrix.Basic

namespace QuantumGates

/-! ## Bits of a basis index -/

/-- The bit of qubit `q` in the basis index `r` of `n` qubits. -/
def bitAt (n q r : Nat) : Nat := r / Nat.pow 2 (n - 1 - q) % 2

/-- The listed bits of `r` as one number, the first the most significant. -/
def packBits (n : Nat) (qubits : List Nat) (r : Nat) : Nat :=
  qubits.foldl (fun acc q => 2 * acc + bitAt n q r) 0

/-- The index `r` with the bit of qubit `q` set to `b`. -/
def setBit (n q b r : Nat) : Nat :=
  r - bitAt n q r * Nat.pow 2 (n - 1 - q) + b * Nat.pow 2 (n - 1 - q)

/-- The index `r` with the listed bits replaced by those of `j`. -/
def replaceBits (n : Nat) : List Nat → Nat → Nat → Nat
  | [], _, r => r
  | q :: qs, j, r => replaceBits n qs j (setBit n q (j / Nat.pow 2 qs.length % 2) r)

/-- The permutation of basis indices that reverses the order of the qubits. -/
def bitReversal (n : Nat) : List Nat :=
  (List.range (Nat.pow 2 n)).map fun r => packBits n (List.range n).reverse r

/-! ## Lifting -/

section

variable {K : Type} [Zero K] [One K] [Add K] [Mul K]

/-- The matrix of a gate on distinct qubits of a register, lifted to the register. -/
def liftGate (m : Mat K) (qubits : List Nat) (n : Nat) : Mat K :=
  Mat.ofFn (Nat.pow 2 n) (Nat.pow 2 n) fun r c =>
    let row := packBits n qubits r
    sumBelow (Nat.pow 2 qubits.length) fun j =>
      m.get row j * Mat.unitEntry (replaceBits n qubits j r) c

variable {R : Type}

/-- Lifts a gate into a register of `n` qubits. The matrix must fit the number of listed
qubits, and these must be distinct qubits of the register. -/
def embed (m : Mat K) (qubits : List Nat) (n : Nat) : Except (Fault R) (Mat K) :=
  let k := qubits.length
  if m.rows ≠ Nat.pow 2 k ∨ m.cols ≠ Nat.pow 2 k then .error (.matrixShape m.shape k)
  else if ¬ qubits.Nodup then .error (.repeatedQubits (qubits.map Int.ofNat))
  else if qubits.any (fun q => decide (n ≤ q)) then
    .error (.qubitsBeyond (qubits.map Int.ofNat) n)
  else .ok (liftGate m qubits n)

end

/-! ## Axes counted from the end -/

section

variable {K : Type} [Zero K] [One K] [Add K] [Mul K]

/-- One axis of the identity of a register: a qubit, or all columns together. -/
inductive Axis
  | qubit (q : Nat)
  | columns
deriving DecidableEq

variable {R : Type}

/-- The axis with a given index among the qubits and, last, the columns. An index below zero
counts from the end. The columns are as long as a qubit in a register of one qubit only. -/
def Axis.ofIndex (n : Nat) (i : Int) : Except (Fault R) Axis :=
  let k := if i < 0 then i + n + 1 else i
  if k < 0 ∨ n < k then .error .outOfBounds
  else if k < n then .ok (.qubit k.toNat)
  else if n = 1 then .ok .columns
  else .error .wrongValue

/-- The bit of a position on an axis; the columns of a single qubit are one bit. -/
def Axis.bit (n : Nat) (position : Nat × Nat) : Axis → Nat
  | .qubit q => bitAt n q position.1
  | .columns => position.2

/-- The position with the bit on an axis set. -/
def Axis.set (n : Nat) (position : Nat × Nat) (b : Nat) : Axis → Nat × Nat
  | .qubit q => (setBit n q b position.1, position.2)
  | .columns => (position.1, b)

/-- The position with its bits on the axes replaced by those of `j`. -/
def Axis.replace (n : Nat) : List Axis → Nat → Nat × Nat → Nat × Nat
  | [], _, p => p
  | a :: as, j, p => replace n as j (a.set n p (j / Nat.pow 2 as.length % 2))

/-- The gate contracted with the identity of the register along the given axes. -/
def contractAxes (m : Mat K) (axes : List Axis) (n : Nat) : Mat K :=
  Mat.ofFn (Nat.pow 2 n) (Nat.pow 2 n) fun r c =>
    let row := axes.foldl (fun acc a => 2 * acc + a.bit n (r, c)) 0
    sumBelow (Nat.pow 2 axes.length) fun j =>
      let p := Axis.replace n axes j (r, c)
      m.get row j * Mat.unitEntry p.1 p.2

/-- Lifts a gate given by indices of any sign. Indices of qubits mean what they mean to
`embed`; one below zero counts from the end of the axes, the last of which holds the columns. -/
def embedAt (m : Mat K) (indices : List Int) (n : Int) : Except (Fault R) (Mat K) := do
  let k := indices.length
  if m.rows ≠ Nat.pow 2 k ∨ m.cols ≠ Nat.pow 2 k then throw (.matrixShape m.shape k)
  if ¬ indices.Nodup then throw (.repeatedQubits indices)
  if indices.any (fun q => decide (n ≤ q)) then throw (.qubitsBeyond indices n)
  if n < 0 then throw .wrongType
  let axes ← indices.mapM (Axis.ofIndex n.toNat)
  if ¬ axes.Nodup then throw .wrongValue
  return contractAxes m axes n.toNat

end

end QuantumGates
