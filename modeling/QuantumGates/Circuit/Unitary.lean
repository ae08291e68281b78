-- The unitary matrix of a circuit on a register: the lifted matrices of its gates multiplied,
-- later gates on the left.
import QuantumGates.Circuit.Composite
import QuantumGates.Gate.Unitary

namespace QuantumGates

variable {R : Type} [Scalar R]

section

variable (value : Param R → Except (Fault R) R) (tolerance : R)

/-- The matrix of one gate on a register of `n` qubits. -/
def Operation.onRegister (op : Operation (Param R)) (n : Nat) : Except (Fault R) (CMat R) :=
  match op.matrix? value tolerance with
  | none => .error (.noMatrix op.kind.name)
  | some m => do embed (← m) op.qubits n

namespace Circuit

/-- The matrix of a circuit after what `u` did. -/
def unitaryFrom (n : Nat) : CMat R → Circuit R → Except (Fault R) (CMat R)
  | u, [] => .ok u
  | u, op :: rest => do unitaryFrom n ((← op.onRegister value tolerance n).mul u) rest

/-- The matrix of a circuit on a register of `n` qubits. -/
def unitary (c : Circuit R) (n : Nat) : Except (Fault R) (CMat R) :=
  unitaryFrom value tolerance n (Mat.identity (Nat.pow 2 n)) c

end Circuit

end

end QuantumGates
