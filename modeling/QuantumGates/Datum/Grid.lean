-- Numbers in rows, rows in blocks and so on, as nested lists give them. Only a grid with two
-- lengths is a matrix; the lengths of any other are all that a message needs of it.
import QuantumGates.Circuit.Unitary
import QuantumGates.Datum.Key

namespace QuantumGates

/-- Complex numbers in a grid of any number of dimensions, the last index running first. -/
structure Grid where
  lengths : List Nat
  cells : List (Cplx Float)

namespace Grid

def single (z : Cplx Float) : Grid := ⟨[], [z]⟩

/-- Grids of the same lengths put one behind another. -/
def stack (grids : List Grid) : Except (Fault Float) Grid :=
  match grids with
  | [] => .ok ⟨[0], []⟩
  | g :: _ =>
    if grids.all fun h => h.lengths == g.lengths then
      .ok ⟨grids.length :: g.lengths, grids.flatMap (·.cells)⟩
    else .error .wrongValue

/-- A grid with two lengths as a matrix. -/
def matrix? (g : Grid) : Option (CMat Float) :=
  match g.lengths with
  | [rows, cols] =>
    let cells := g.cells.toArray
    some (Mat.ofFn rows cols fun r c => cells[r * cols + c]?.getD 0)
  | _ => none

/-- A matrix as a grid. -/
def ofMatrix (m : CMat Float) : Grid := ⟨m.shape, m.entries.toList⟩

end Grid

namespace Datum

/-- A value as an entry of a matrix. What is left out is undefined. -/
def entry (d : Datum) : Except (Fault Float) (Cplx Float) :=
  match d with
  | nothing => .ok ⟨Double.undefined, Double.undefined⟩
  | complex x y => .ok ⟨x, y⟩
  | _ => d.toDouble.map Cplx.ofReal

mutual

/-- Nested lists of numbers as a grid. -/
def grid : Datum → Except (Fault Float) Grid
  | list xs => do Grid.stack (← grids xs)
  | tuple xs => do Grid.stack (← grids xs)
  | d => d.entry.map Grid.single

def grids : List Datum → Except (Fault Float) (List Grid)
  | [] => .ok []
  | x :: xs => do
    let g ← grid x
    let gs ← grids xs
    return g :: gs

end

/-- A value that is compared with numbers. -/
def threshold (d : Datum) : Except (Fault Float) Float := d.real?.getD (.error .wrongType)

end Datum

namespace Grid

/-- Lifts a grid that must be the matrix of a gate into a register. -/
def embed (g : Grid) (qubits register : Datum) : Except (Fault Float) (CMat Float) := do
  let items ← qubits.items
  match g.matrix? with
  | none => throw (.matrixShape g.lengths items.length)
  | some m =>
    if m.rows ≠ Nat.pow 2 items.length ∨ m.cols ≠ Nat.pow 2 items.length then
      throw (.matrixShape g.lengths items.length)
    let indices ← items.mapM Datum.index
    embedAt m indices (← register.index)

/-- The deviation from a unitary matrix that is overlooked if no other is given. -/
def unitaryTolerance : Float := 1e-12

/-- Whether a grid is a unitary matrix within a tolerance. -/
def isUnitary (g : Grid) (tolerance : Option Datum) : Except (Fault Float) Bool :=
  match g.matrix? with
  | none => .ok false
  | some m =>
    if m.rows ≠ m.cols then .ok false
    else do
      let tolerance ← (tolerance.map Datum.threshold).getD (.ok unitaryTolerance)
      return QuantumGates.isUnitary m tolerance

end Grid

/-- The order of the states of a register whose qubits are reversed. Whatever is equal to nought
means no qubits; else the number must be whole, and a truth has no digits to reverse. -/
def Datum.bitReversal (d : Datum) : Except (Fault Float) (List Nat) := do
  if ← d.equal (.integer 0) then return QuantumGates.bitReversal 0
  match d with
  | .boolean _ => throw .wrongValue
  | _ =>
    let n ← d.index
    if n < 0 then throw .wrongType
    return QuantumGates.bitReversal n.toNat

end QuantumGates
