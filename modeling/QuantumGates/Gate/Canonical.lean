-- The canonical form of a gate on one qubit. With alpha = alpha_r + i alpha_i and
-- beta = beta_r + i beta_i every such gate is
--
--     exp (i phase) * [[alpha, -conj beta], [beta, conj alpha]].
--
-- The five values are parameters, so that products of gates can be formed before the values of
-- their angles are known.
import QuantumGates.Gate.Operation

namespace QuantumGates

/-- The five values that determine a gate on one qubit. -/
structure Canonical (P : Type) where
  alphaRe : P
  alphaIm : P
  betaRe : P
  betaIm : P
  phase : P
deriving DecidableEq

namespace Canonical

variable {P : Type}

def toList (c : Canonical P) : List P := [c.alphaRe, c.alphaIm, c.betaRe, c.betaIm, c.phase]

/-- The values changed one after another. -/
def mapM {Q E : Type} (f : P → Except E Q) (c : Canonical P) : Except E (Canonical Q) := do
  let alphaRe ← f c.alphaRe
  let alphaIm ← f c.alphaIm
  let betaRe ← f c.betaRe
  let betaIm ← f c.betaIm
  let phase ← f c.phase
  return ⟨alphaRe, alphaIm, betaRe, betaIm, phase⟩

/-- The gate with given canonical values. -/
def gate (c : Canonical P) (q : Nat) : Operation P :=
  ⟨.single .general, q, c.alphaRe, c.alphaIm, c.betaRe, c.betaIm, c.phase, ()⟩

end Canonical

section

variable {R : Type} [Scalar R]

/-- A fraction of a whole number. -/
def fraction (a b : Nat) : R := Scalar.whole a / Scalar.whole b

/-- A fraction of half a turn. -/
def partOfPi (b : Nat) : R := Scalar.pi / Scalar.whole b

/-- One over the square root of two. -/
def invRootTwo : Except (Fault R) R := (Scalar.sqrt? (Scalar.whole 2)).map (1 / ·)

/-- Cosine and sine of half an angle. -/
def halfAngle (theta : Param R) : Except (Fault R) (Param R × Param R) := do
  let half ← theta.div (.literal (Scalar.whole 2))
  let c ← half.cos
  let s ← half.sin
  return (c, s)

/-- The canonical values of a gate of a kind with the given fields. -/
def SingleKind.canonical : (k : SingleKind) → Args (Param R) k.fields →
    Except (Fault R) (Canonical (Param R))
  | .general, (_, ar, ai, br, bi, phase, _) => .ok ⟨ar, ai, br, bi, phase⟩
  | .identity, _ => .ok ⟨one, zero, zero, zero, zero⟩
  | .rotateX, (_, theta, _) => do
    let (c, s) ← halfAngle theta
    return ⟨c, zero, zero, s.neg, zero⟩
  | .rotateY, (_, theta, _) => do
    let (c, s) ← halfAngle theta
    return ⟨c, zero, s, zero, zero⟩
  | .rotateZ, (_, theta, _) => do
    let (c, s) ← halfAngle theta
    return ⟨c, s.neg, zero, zero, zero⟩
  | .rotateXY, (_, theta, phi, _) => do
    let (c, s) ← halfAngle theta
    let sinPhi ← phi.sin
    let cosPhi ← phi.cos
    return ⟨c, zero, s.mul sinPhi, (s.mul cosPhi).neg, zero⟩
  | .rotateSpherical, (_, theta, polar, azimuth, _) => do
    let (c, s) ← halfAngle theta
    let cosPolar ← polar.cos
    let sinPolar ← polar.sin
    let sinAzimuth ← azimuth.sin
    let cosAzimuth ← azimuth.cos
    return ⟨c, (s.mul cosPolar).neg, (s.mul sinPolar).mul sinAzimuth,
      ((s.mul sinPolar).mul cosAzimuth).neg, zero⟩
  | .phaseShiftState0, (_, theta, _) => do
    let (c, s) ← halfAngle theta
    return ⟨c, s, zero, zero, ← theta.div (.literal (Scalar.whole 2))⟩
  | .phaseShiftState1, (_, theta, _) => do
    let (c, s) ← halfAngle theta
    return ⟨c, s.neg, zero, zero, ← theta.div (.literal (Scalar.whole 2))⟩
  | .pauliX, _ => .ok ⟨zero, zero, zero, .literal (-1), turn 2⟩
  | .pauliY, _ => .ok ⟨zero, zero, one, zero, turn 2⟩
  | .pauliZ, _ => .ok ⟨zero, .literal (-1), zero, zero, turn 2⟩
  | .sqrtPauliX, _ => .ok ⟨.literal (cosine 4), zero, zero, .literal (-cosine 4), zero⟩
  | .invSqrtPauliX, _ => .ok ⟨.literal (cosine 4), zero, zero, .literal (cosine 4), zero⟩
  | .sqrtPauliY, _ => .ok ⟨.literal (cosine 4), zero, .literal (cosine 4), zero, zero⟩
  | .invSqrtPauliY, _ => .ok ⟨.literal (cosine 4), zero, .literal (-cosine 4), zero, zero⟩
  | .sGate, _ => do
    let f ← invRootTwo
    return ⟨.literal f, .literal (-f), zero, zero, turn 4⟩
  | .invSGate, _ => do
    let f ← invRootTwo
    return ⟨.literal f, .literal f, zero, zero, backTurn 4⟩
  | .tGate, _ => .ok ⟨.literal (cosine 8), .literal (-sine 8), zero, zero, turn 8⟩
  | .invTGate, _ => .ok ⟨.literal (cosine 8), .literal (sine 8), zero, zero, backTurn 8⟩
  | .hadamard, _ => do
    let f ← invRootTwo
    return ⟨zero, .literal (-f), zero, .literal (-f), turn 2⟩
  | .gPi, (_, theta, _) => do
    let s ← theta.sin
    let c ← theta.cos
    return ⟨zero, zero, s, c.neg, turn 2⟩
  | .gPi2, (_, theta, _) => do
    let f ← invRootTwo
    let s ← theta.sin
    let c ← theta.cos
    return ⟨.literal f, zero, s.mul (.literal f), (c.mul (.literal f)).neg, zero⟩
where
  zero : Param R := .literal 0
  one : Param R := .literal 1
  turn (b : Nat) : Param R := .literal (partOfPi b)
  backTurn (b : Nat) : Param R := .literal (-Scalar.pi / Scalar.whole b)
  cosine (b : Nat) : R := (Scalar.cosSin (partOfPi b)).1
  sine (b : Nat) : R := (Scalar.cosSin (partOfPi b)).2

namespace Operation

/-- The canonical values of a gate on one qubit, and nothing for other operations. -/
def canonical? (op : Operation (Param R)) :
    Option (Except (Fault R) (Canonical (Param R))) :=
  match op with
  | ⟨.single k, args⟩ => some (k.canonical args)
  | _ => none

/-- The qubit of a gate on one qubit. -/
def singleQubit? (op : Operation (Param R)) : Option Nat :=
  match op.kind with
  | .single _ => op.qubits.head?
  | _ => none

/-- A gate on one qubit as the general gate with its canonical values. -/
def toGeneral? (op : Operation (Param R)) : Option (Except (Fault R) (Operation (Param R))) :=
  match op.canonical?, op.singleQubit? with
  | some c, some q => some (c.map fun c => c.gate q)
  | _, _ => none

end Operation

end

end QuantumGates
