-- The gates that circuits are made of, each by its qubits and parameters.
import QuantumGates.Gate.Operation

namespace QuantumGates

namespace Operation

variable {P : Type}

def hadamard (q : Nat) : Operation P := ⟨.single .hadamard, q, ()⟩
def pauliX (q : Nat) : Operation P := ⟨.single .pauliX, q, ()⟩
def tGate (q : Nat) : Operation P := ⟨.single .tGate, q, ()⟩
def rotateZ (q : Nat) (theta : P) : Operation P := ⟨.single .rotateZ, q, theta, ()⟩

/-- A phase on the state 1 of a qubit. -/
def phaseShift (q : Nat) (theta : P) : Operation P := ⟨.single .phaseShiftState1, q, theta, ()⟩

def cnot (control target : Nat) : Operation P := ⟨.two .cnot, control, target, ()⟩
def swap (a b : Nat) : Operation P := ⟨.two .swap, a, b, ()⟩

/-- A phase on the state 11 of two qubits. -/
def controlledPhase (control target : Nat) (theta : P) : Operation P :=
  ⟨.two .controlledPhaseShift, control, target, theta, ()⟩

end Operation

end QuantumGates
