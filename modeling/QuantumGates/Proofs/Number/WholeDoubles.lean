-- The double nearest to a whole number. The digits beyond the fifty-three that a double has are
-- rounded away, so the double is again a whole number, the same one up to `2 ^ 53`. From half a
-- unit below `2 ^ 1024` on there is none.
import QuantumGates.Proofs.Number.Comparison

namespace QuantumGates

/-! ## Normal forms -/

namespace BigFloat

end BigFloat

/-! ## Doubles with given bits -/

open Float.Model Float.Model.UnpackedFloat

namespace Double

variable {x : Float}

end Double

namespace BigFloat

section

variable {n s : ℕ}

end

end BigFloat

section

variable {n : ℤ}

end

end QuantumGates
