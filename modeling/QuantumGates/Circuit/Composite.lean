-- The equivalent circuit of each composite gate, made of gates on one and two qubits.
import QuantumGates.Circuit.Fourier

namespace QuantumGates

variable {R : Type} [Scalar R]

/-- The same phase on each of several qubits. -/
def phaseOnEach (qubits : List Nat) (phi : Param R) : Circuit R :=
  qubits.map fun q => .phaseShift q phi

def ThreeKind.circuit : (k : ThreeKind) → Args (Param R) k.fields →
    Except (Fault R) (Circuit R)
  | .controlledControlledPauliZ, (a, b, t, _) => .ok (signLadder a b t)
  | .controlledControlledPhaseShift, (a, b, t, theta, _) => phaseLadder a b t theta
  | .toffoli, (a, b, t, _) => .ok (toffoliCircuit a b t)
  | .controlledSwap, (c, s, t, _) => .ok (.cnot t s :: toffoliCircuit c s t ++ [.cnot t s])
  | .phaseShiftedControlledControlledZ, (a, b, t, phi, _) =>
    .ok (signLadder a b t ++ phaseOnEach [a, b, t] phi)
  | .phaseShiftedControlledControlledPhase, (a, b, t, theta, phi, _) => do
    return (← phaseLadder a b t theta) ++ phaseOnEach [a, b, t] phi

def FourKind.circuit : (k : FourKind) → Args (Param R) k.fields → Except (Fault R) (Circuit R)
  | .tripleControlledPauliX, (a, b, c, t, _) => networkNot [a, b, c, t]
  | .tripleControlledPauliZ, (a, b, c, t, _) => parityNetwork [a, b, c, t] (.literal Scalar.pi)
  | .tripleControlledPhaseShift, (a, b, c, t, theta, _) => parityNetwork [a, b, c, t] theta

def RegisterKind.circuit : (k : RegisterKind) → Args (Param R) k.fields →
    Except (Fault R) (Circuit R)
  | .ms, (qubits, theta, _) => flipRotation qubits theta
  | .zz, (qubits, theta, _) => parityRotation qubits theta
  | .cnot, (qubits, _) => controlledNot qubits
  | .qft, (qubits, swaps, inverse, _) => fourierCircuit qubits swaps inverse

/-- The equivalent circuit of a composite gate, and nothing for other operations. -/
def Operation.circuit? : Operation (Param R) → Option (Except (Fault R) (Circuit R))
  | ⟨.three k, args⟩ => some (k.circuit args)
  | ⟨.four k, args⟩ => some (k.circuit args)
  | ⟨.register k, args⟩ => some (k.circuit args)
  | _ => none

end QuantumGates
