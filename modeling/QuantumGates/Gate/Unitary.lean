-- The unitary matrices of the gates, each written out in closed form. The first qubit of a
-- gate is the most significant bit of an index. Only the gate that is given by its canonical
-- values can fail to be unitary; it is refused if its norm is not one within a tolerance.
import QuantumGates.Gate.Product
import QuantumGates.Matrix.Cplx
import QuantumGates.Matrix.Embed

namespace QuantumGates

variable {R : Type} [Scalar R]

/-! ## Building blocks -/

/-- A matrix of complex numbers. -/
abbrev CMat (R : Type) := Mat (Cplx R)

namespace CMat

/-- A real entry. -/
def real (x : R) : Cplx R := Cplx.ofReal x

/-- An imaginary entry. -/
def imaginary (x : R) : Cplx R := ⟨0, x⟩

/-- `-i` times a real number. -/
def minusI (x : R) : Cplx R := ⟨0, -1⟩ * real x

/-- The matrix with given rows. -/
def table (rs : List (List (Cplx R))) : CMat R := Mat.ofRows rs

/-- A matrix on two qubits that acts on 00 and 11 by one matrix and on 01 and 10 by another. -/
def outerInner (outer inner : List (List (Cplx R))) : CMat R :=
  let o := table outer
  let i := table inner
  table [[o.get 0 0, 0, 0, o.get 0 1], [0, i.get 0 0, i.get 0 1, 0],
    [0, i.get 1 0, i.get 1 1, 0], [o.get 1 0, 0, 0, o.get 1 1]]

/-- A matrix on two qubits that acts on the second one if the first one is 1. -/
def controlled (block : List (List (Cplx R))) : CMat R :=
  let b := table block
  table [[1, 0, 0, 0], [0, 1, 0, 0], [0, 0, b.get 0 0, b.get 0 1], [0, 0, b.get 1 0, b.get 1 1]]

/-- The rows of the identity on one qubit. -/
def unitRows : List (List (Cplx R)) := [[1, 0], [0, 1]]

/-- The rows that exchange the states of one qubit. -/
def flipRows : List (List (Cplx R)) := [[0, 1], [1, 0]]

def diagonalOf (ds : List (Cplx R)) : CMat R :=
  Mat.diagonal ds.length fun k => (ds[k]?).getD 0

/-- The identity with two rows exchanged. -/
def exchange (n a b : Nat) : CMat R :=
  Mat.ofFn n n fun r c => Mat.unitEntry (if r = a then b else if r = b then a else r) c

/-- A rotation with cosine `c` and sine `s` and a phase between the two states. -/
def rotation (c s : R) (phase : Cplx R) : List (List (Cplx R)) :=
  [[real c, minusI s * phase.conj], [minusI s * phase, real c]]

/-- A rotation with cosine `c` and sine `s` around the first axis. -/
def rotationX (c s : R) : List (List (Cplx R)) :=
  [[real c, minusI s], [minusI s, real c]]

end CMat

open CMat

/-! ## The canonical form -/

/-- The matrix of canonical values, if their norm is one within the tolerance. -/
def Canonical.matrix (c : Canonical R) (tolerance : R) : Except (Fault R) (CMat R) := do
  let a ← Scalar.square? c.alphaRe
  let b ← Scalar.square? c.alphaIm
  let d ← Scalar.square? c.betaRe
  let e ← Scalar.square? c.betaIm
  let norm := a + b + d + e
  if Scalar.below tolerance (Scalar.abs (norm - 1)) then
    throw (.notUnitary c.alphaRe c.alphaIm c.betaRe c.betaIm norm)
  return Mat.scale (Cplx.cis c.phase)
    (table [[⟨c.alphaRe, c.alphaIm⟩, ⟨-c.betaRe, c.betaIm⟩],
      [⟨c.betaRe, c.betaIm⟩, ⟨c.alphaRe, -c.alphaIm⟩]])

/-! ## Gates of each size -/

section

variable (value : Param R → Except (Fault R) R) (tolerance : R)

/-- Cosine and sine of a parameter. -/
def cosSinOf (theta : Param R) : Except (Fault R) (R × R) := do
  let c ← Scalar.cos? (← value theta)
  let s ← Scalar.sin? (← value theta)
  return (c, s)

/-- Cosine and sine of half a parameter. -/
def halfCosSin (theta : Param R) : Except (Fault R) (R × R) := do
  let half := (← value theta) / Scalar.whole 2
  let c ← Scalar.cos? half
  let s ← Scalar.sin? half
  return (c, s)

/-- The phase of a parameter. -/
def phaseOf (theta : Param R) : Except (Fault R) (Cplx R) := (value theta).map Cplx.cis

/-- The matrix of canonical parameters. -/
def canonicalMatrix (c : Except (Fault R) (Canonical (Param R))) : Except (Fault R) (CMat R) := do
  let c ← c
  let c ← c.mapM value
  c.matrix tolerance

def SingleKind.matrix : (k : SingleKind) → Args (Param R) k.fields → Except (Fault R) (CMat R)
  | .general, args => canonicalMatrix value tolerance (SingleKind.canonical .general args)
  | .rotateSpherical, args =>
    canonicalMatrix value tolerance (SingleKind.canonical .rotateSpherical args)
  | .identity, _ => .ok (Mat.identity 2)
  | .rotateX, (_, theta, _) => do
    let (c, s) ← halfCosSin value theta
    return table (rotationX c s)
  | .rotateY, (_, theta, _) => do
    let (c, s) ← halfCosSin value theta
    return table [[real c, real (-s)], [real s, real c]]
  | .rotateZ, (_, theta, _) => do
    let phase := Cplx.cis (fraction 1 2 * (← value theta))
    return table [[phase.conj, 0], [0, phase]]
  | .rotateXY, (_, theta, phi, _) => do
    let (c, s) ← halfCosSin value theta
    return table (rotation c s (← phaseOf value phi))
  | .phaseShiftState0, (_, theta, _) => do return diagonalOf [← phaseOf value theta, 1]
  | .phaseShiftState1, (_, theta, _) => do return diagonalOf [1, ← phaseOf value theta]
  | .pauliX, _ => .ok (table flipRows)
  | .pauliY, _ => .ok (table [[0, imaginary (-1)], [imaginary 1, 0]])
  | .pauliZ, _ => .ok (table [[1, 0], [0, -1]])
  | .sqrtPauliX, _ => .ok (table (rotationX cosine cosine))
  | .invSqrtPauliX, _ => .ok (table (rotationX cosine (-cosine)))
  | .sqrtPauliY, _ => .ok (table [[real cosine, real (-cosine)], [real cosine, real cosine]])
  | .invSqrtPauliY, _ => .ok (table [[real cosine, real cosine], [real (-cosine), real cosine]])
  | .sGate, _ => .ok (table [[1, 0], [0, imaginary 1]])
  | .invSGate, _ => .ok (table [[1, 0], [0, imaginary (-1)]])
  | .tGate, _ => .ok (table [[1, 0], [0, Cplx.cis (partOfPi 4)]])
  | .invTGate, _ => .ok (table [[1, 0], [0, Cplx.cis (-partOfPi 4)]])
  | .hadamard, _ => do return Mat.scale (real (← invRootTwo)) (table [[1, 1], [1, -1]])
  | .gPi, (_, theta, _) => do
    let phase ← phaseOf value theta
    return table [[0, phase.conj], [phase, 0]]
  | .gPi2, (_, theta, _) => do
    let phase ← phaseOf value theta
    return Mat.scale (real (← invRootTwo))
      (table [[1, minusI 1 * phase.conj], [minusI 1 * phase, 1]])
where
  cosine : R := (Scalar.cosSin (partOfPi 4)).1

/-- The blocks of an exchange interaction: that on equal and that on unequal states. -/
def interaction (x y z : R) :
    Except (Fault R) (List (List (Cplx R)) × Cplx R × Cplx R) := do
  let c ← Scalar.cos? (x - y)
  let s ← Scalar.sin? (x - y)
  let c' ← Scalar.cos? (x + y)
  let s' ← Scalar.sin? (x + y)
  let phase := Cplx.cis (-z)
  let phase' := Cplx.cis z
  return ([[phase * real c, phase * minusI s], [phase * minusI s, phase * real c]],
    phase' * real c', phase' * minusI s')

/-- The rotation by the magnitude of a complex coupling, turned by its angle. -/
def couplingRotation (re im : R) : Except (Fault R) (List (List (Cplx R))) := do
  let magnitude ← Scalar.hypot? re im
  let phase := Cplx.cis (Scalar.atan2 im re)
  let c ← Scalar.cos? magnitude
  let s ← Scalar.sin? magnitude
  return rotation c s phase

def TwoKind.matrix : (k : TwoKind) → Args (Param R) k.fields → Except (Fault R) (CMat R)
  | .cnot, _ => .ok (controlled flipRows)
  | .swap, _ => .ok (outerInner unitRows flipRows)
  | .iSwap, _ => .ok (outerInner unitRows [[0, imaginary 1], [imaginary 1, 0]])
  | .fSwap, _ => .ok (outerInner [[1, 0], [0, -1]] flipRows)
  | .sqrtISwap, _ => do
    let f ← invRootTwo
    return outerInner unitRows [[real f, imaginary f], [imaginary f, real f]]
  | .invSqrtISwap, _ => do return outerInner unitRows (rotationX (← invRootTwo) (← invRootTwo))
  | .controlledPauliY, _ => .ok (controlled [[0, imaginary (-1)], [imaginary 1, 0]])
  | .controlledPauliZ, _ => .ok (diagonalOf [1, 1, 1, -1])
  | .molmerSorensenXX, _ => do
    let block := rotationX (← invRootTwo) (← invRootTwo)
    return outerInner block block
  | .echoCrossResonance, _ => do
    return Mat.scale (real (← invRootTwo))
      (table [[0, 1, 0, imaginary 1], [1, 0, imaginary (-1), 0], [0, imaginary 1, 0, 1],
        [imaginary (-1), 0, 1, 0]])
  | .xy, (_, _, theta, _) => do
    let (c, s) ← halfCosSin value theta
    return outerInner unitRows
      [[real c, imaginary 1 * real s], [imaginary 1 * real s, real c]]
  | .controlledPhaseShift, (_, _, theta, _) => do
    return diagonalOf [1, 1, 1, ← phaseOf value theta]
  | .variableMSXX, (_, _, theta, _) => do
    let (c, s) ← halfCosSin value theta
    return outerInner (rotationX c s) (rotationX c s)
  | .givens, (_, _, theta, phi, _) => do
    let (c, s) ← cosSinOf value theta
    let phase ← phaseOf value phi
    return outerInner [[1, 0], [0, phase]]
      [[real c * phase, real s], [real (-s) * phase, real c]]
  | .givensLittleEndian, (_, _, theta, phi, _) => do
    let (c, s) ← cosSinOf value theta
    let phase ← phaseOf value phi
    return outerInner [[1, 0], [0, phase]]
      [[real c, real s], [real (-s) * phase, real c * phase]]
  | .controlledRotateX, (_, _, theta, _) => do
    let (c, s) ← halfCosSin value theta
    return controlled (rotationX c s)
  | .controlledRotateXY, (_, _, theta, phi, _) => do
    let (c, s) ← halfCosSin value theta
    return controlled (rotation c s (← phaseOf value phi))
  | .spinInteraction, (_, _, x, y, z, _) => do
    let (outer, c, s) ← interaction (← value x) (← value y) (← value z)
    return outerInner outer [[c, s], [s, c]]
  | .qsim, (_, _, x, y, z, _) => do
    let (outer, c, s) ← interaction (← value x) (← value y) (← value z)
    return outerInner outer [[s, c], [c, s]]
  | .fsim, (_, _, t, u, delta, _) => do
    let t ← value t
    let u ← value u
    let delta ← value delta
    let phase := Cplx.cis (-u)
    let c ← Scalar.cos? delta
    let s ← Scalar.sin? delta
    let s' ← Scalar.sin? t
    let c' ← Scalar.cos? t
    return outerInner
      [[real c, imaginary 1 * real s], [minusI s * phase, real (-c) * phase]]
      [[minusI s', real c'], [real c', minusI s']]
  | .bogoliubov, (_, _, re, im, _) => do
    return outerInner (← couplingRotation (← value re) (← value im)) unitRows
  | .pmInteraction, (_, _, t, _) => do
    let (c, s) ← cosSinOf value t
    return outerInner unitRows (rotationX c s)
  | .complexPMInteraction, (_, _, re, im, _) => do
    return outerInner unitRows (← couplingRotation (← value re) (← value im))
  | .phaseShiftedControlledZ, (_, _, phi, _) => do
    let phase ← phaseOf value phi
    return diagonalOf [1, phase, phase, -phase * phase]
  | .phaseShiftedControlledPhase, (_, _, theta, phi, _) => do
    let phi ← value phi
    let phase := Cplx.cis phi
    let last := Cplx.cis (Scalar.whole 2 * phi + (← value theta))
    return diagonalOf [1, phase, phase, last]

/-- How many bits of a number are one. -/
def bitCount (n : Nat) : Nat := go n n
where
  go : Nat → Nat → Nat
    | 0, _ => 0
    | fuel + 1, k => k % 2 + go fuel (k / 2)

/-- The phase of each state of three qubits when every qubit that is 1 adds an angle. -/
def countPhase (phi : R) (k : Nat) : Cplx R := Cplx.cis (phi * Scalar.whole (bitCount k))

def ThreeKind.matrix : (k : ThreeKind) → Args (Param R) k.fields → Except (Fault R) (CMat R)
  | .controlledControlledPauliZ, _ => .ok (lastPhase 8 (-1))
  | .controlledControlledPhaseShift, (_, _, _, theta, _) => do
    return lastPhase 8 (← phaseOf value theta)
  | .toffoli, _ => .ok (exchange 8 6 7)
  | .controlledSwap, _ => .ok (exchange 8 5 6)
  | .phaseShiftedControlledControlledZ, (_, _, _, phi, _) => do
    let phi ← value phi
    return Mat.diagonal 8 fun k => if k = 7 then countPhase phi k * -1 else countPhase phi k
  | .phaseShiftedControlledControlledPhase, (_, _, _, theta, phi, _) => do
    let phi ← value phi
    let phase ← phaseOf value theta
    return Mat.diagonal 8 fun k => if k = 7 then countPhase phi k * phase else countPhase phi k
where
  /-- A phase on the last of `n` states. -/
  lastPhase (n : Nat) (z : Cplx R) : CMat R := Mat.diagonal n fun k => if k + 1 = n then z else 1

def FourKind.matrix : (k : FourKind) → Args (Param R) k.fields → Except (Fault R) (CMat R)
  | .tripleControlledPauliX, _ => .ok (exchange 16 14 15)
  | .tripleControlledPauliZ, _ => .ok (ThreeKind.matrix.lastPhase 16 (-1))
  | .tripleControlledPhaseShift, (_, _, _, _, theta, _) => do
    return ThreeKind.matrix.lastPhase 16 (← phaseOf value theta)

/-- The Fourier matrix of `n` qubits, its rows in reversed order of qubits unless `swaps`. -/
def fourierMatrix (n : Nat) (swaps : Bool) : Except (Fault R) (CMat R) := do
  let size := Nat.pow 2 n
  let norm ← Scalar.sqrt? (Scalar.whole size : R)
  let entry (r c : Nat) : Cplx R :=
    let z := Cplx.cis (Scalar.whole 2 * Scalar.pi * Scalar.whole (r * c % size) / Scalar.whole size)
    ⟨z.re / norm, z.im / norm⟩
  return Mat.ofFn size size fun r c =>
    entry (if swaps then r else packBits n (List.range n).reverse r) c

def RegisterKind.matrix : (k : RegisterKind) → Args (Param R) k.fields → Except (Fault R) (CMat R)
  | .ms, (qubits, theta, _) => do
    let size := Nat.pow 2 qubits.length
    let half := (← value theta) / Scalar.whole 2
    let (c, s) := Scalar.cosSin half
    return Mat.ofFn size size fun r k =>
      real c * Mat.unitEntry r k - imaginary 1 * real s * Mat.unitEntry r (size - 1 - k)
  | .zz, (qubits, theta, _) => do
    let phase := Cplx.cis (-fraction 1 2 * (← value theta))
    return Mat.diagonal (Nat.pow 2 qubits.length) fun k =>
      if bitCount k % 2 = 0 then phase else phase.conj
  | .cnot, (qubits, _) =>
    if qubits.isEmpty then .error (.noQubits (RegisterKind.name .cnot))
    else
      let size := Nat.pow 2 qubits.length
      .ok (exchange size (size - 2) (size - 1))
  | .qft, (qubits, swaps, inverse, _) => do
    let m ← fourierMatrix qubits.length swaps
    return if inverse then m.transposeWith Cplx.conj else m

/-- The unitary matrix of a gate; the call of a gate defined elsewhere has none. -/
def Operation.matrix? : Operation (Param R) → Option (Except (Fault R) (CMat R))
  | ⟨.single k, args⟩ => some (k.matrix value tolerance args)
  | ⟨.two k, args⟩ => some (k.matrix value args)
  | ⟨.three k, args⟩ => some (k.matrix value args)
  | ⟨.four k, args⟩ => some (k.matrix value args)
  | ⟨.register k, args⟩ => some (k.matrix value args)
  | ⟨.call, _⟩ => none

end

/-- Whether the magnitude of a number is at most a tolerance. -/
def isWithin (tolerance : R) (z : Cplx R) : Bool :=
  match Scalar.hypot? z.re z.im with
  | .ok x => Scalar.isDefined tolerance && Scalar.isDefined x && !Scalar.below tolerance x
  | .error _ => false

/-- Whether the adjoint of a matrix is its inverse, each entry within a tolerance. -/
def isUnitary (m : CMat R) (tolerance : R) : Bool :=
  m.rows == m.cols &&
    let p := (m.transposeWith Cplx.conj).mul m
    (List.range m.rows).all fun r =>
      (List.range m.cols).all fun c => isWithin tolerance (p.get r c - Mat.unitEntry r c)

end QuantumGates
