-- The matrix of canonical values that are any doubles. Where no value is undefined and no square of
-- a finite value is too large for a double, there is a matrix just when the norm is one within the
-- tolerance, and otherwise the fault tells the values and the norm. A square that is too large is
-- refused before there is a norm, and an undefined value gives a norm that nothing is above.
import QuantumGates.Proofs.Gate.CanonicalForm
import QuantumGates.Proofs.Number.Undefined
import QuantumGates.Settings

namespace QuantumGates

open CMat

namespace Canonical

/-! ## The norm in doubles -/

/-- The values that make up the norm. -/
def parts {P : Type} (c : Canonical P) : List P := [c.alphaRe, c.alphaIm, c.betaRe, c.betaIm]

variable {c : Canonical Float}

end Canonical

end QuantumGates
