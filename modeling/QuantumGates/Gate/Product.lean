-- Products of gates on one qubit, and powers of rotations. A product is taken in canonical
-- form, on the parameters themselves, so that it holds for expressions as it does for numbers.
import QuantumGates.Gate.Canonical

namespace QuantumGates

variable {R : Type} [Scalar R]

/-- The canonical values of a product; the right factor acts first. -/
def Canonical.mul (a b : Canonical (Param R)) : Canonical (Param R) where
  alphaRe := ((a.alphaRe.mul b.alphaRe).sub (a.alphaIm.mul b.alphaIm)).sub
    ((a.betaRe.mul b.betaRe).add (a.betaIm.mul b.betaIm))
  alphaIm := ((a.alphaRe.mul b.alphaIm).add (a.alphaIm.mul b.alphaRe)).sub
    ((a.betaRe.mul b.betaIm).sub (a.betaIm.mul b.betaRe))
  betaRe := ((a.betaRe.mul b.alphaRe).sub (a.betaIm.mul b.alphaIm)).add
    ((a.alphaRe.mul b.betaRe).add (a.alphaIm.mul b.betaIm))
  betaIm := ((a.betaRe.mul b.alphaIm).add (a.betaIm.mul b.alphaRe)).add
    ((a.alphaRe.mul b.betaIm).sub (a.alphaIm.mul b.betaRe))
  phase := a.phase.add b.phase

namespace Operation

/-- What an operation is to messages. -/
def valueKind {P : Type} (op : Operation P) : ValueKind := .operation op.kind.group op.kind.name

/-- The product of two gates on the same qubit; the right one acts first. -/
def multiply (a b : Operation (Param R)) : Except (Fault R) (Operation (Param R)) :=
  match a.canonical?, a.singleQubit?, b.canonical?, b.singleQubit? with
  | some ca, some p, some cb, some q => do
    if p ≠ q then throw (.differentQubits p q)
    let ca ← ca
    let cb ← cb
    return (ca.mul cb).gate p
  | some _, some _, _, _ => .error (.notSingleQubit b.valueKind)
  | _, _, _, _ => .error (.notSingleQubit a.valueKind)

/-- A rotation with its angle theta multiplied, which is the gate to a power. -/
def power (op : Operation (Param R)) (exponent : Param R) :
    Except (Fault R) (Operation (Param R)) :=
  if op.kind.isRotation then .ok (op.onTheta fun theta => exponent.mul theta)
  else .error (.noPower op.valueKind)

end Operation

end QuantumGates
