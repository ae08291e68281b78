-- The kinds of operations: for each its name, its fields, the tags that classify it, the first
-- version that knows it, and whether it is a rotation that can be raised to a power.
import QuantumGates.Gate.Field

namespace QuantumGates

/-! ## Kinds -/

/-- Gates on one qubit. -/
inductive SingleKind
  | general | identity
  | rotateX | rotateY | rotateZ | rotateXY | rotateSpherical
  | phaseShiftState0 | phaseShiftState1
  | pauliX | pauliY | pauliZ
  | sqrtPauliX | invSqrtPauliX | sqrtPauliY | invSqrtPauliY
  | sGate | invSGate | tGate | invTGate
  | hadamard | gPi | gPi2
deriving DecidableEq, Repr

/-- Gates on two qubits. -/
inductive TwoKind
  | cnot | swap | iSwap | fSwap | sqrtISwap | invSqrtISwap
  | controlledPauliY | controlledPauliZ | molmerSorensenXX | echoCrossResonance
  | xy | controlledPhaseShift | variableMSXX | givens | givensLittleEndian
  | controlledRotateX | controlledRotateXY
  | spinInteraction | qsim | fsim | bogoliubov | pmInteraction | complexPMInteraction
  | phaseShiftedControlledZ | phaseShiftedControlledPhase
deriving DecidableEq, Repr

/-- Gates on three qubits. -/
inductive ThreeKind
  | controlledControlledPauliZ | controlledControlledPhaseShift | toffoli | controlledSwap
  | phaseShiftedControlledControlledZ | phaseShiftedControlledControlledPhase
deriving DecidableEq, Repr

/-- Gates on four qubits. -/
inductive FourKind
  | tripleControlledPauliX | tripleControlledPauliZ | tripleControlledPhaseShift
deriving DecidableEq, Repr

/-- Gates on a list of qubits. -/
inductive RegisterKind
  | ms | zz | cnot | qft
deriving DecidableEq, Repr

inductive Kind
  | single (k : SingleKind)
  | two (k : TwoKind)
  | three (k : ThreeKind)
  | four (k : FourKind)
  | register (k : RegisterKind)
  /-- The call of a gate that is defined elsewhere. -/
  | call
deriving DecidableEq, Repr

/-! ## Fields -/

abbrev qubitField (name : String) : Field := ⟨name, .qubit⟩
abbrev parameterField (name : String) : Field := ⟨name, .parameter⟩
abbrev qubitsField : Field := ⟨"qubits", .qubits⟩
abbrev qubit : Field := qubitField "qubit"
abbrev control : Field := qubitField "control"
abbrev target : Field := qubitField "target"
abbrev theta : Field := parameterField "theta"
abbrev phi : Field := parameterField "phi"

abbrev SingleKind.fields : SingleKind → List Field
  | general =>
    [qubit, parameterField "alpha_r", parameterField "alpha_i", parameterField "beta_r",
     parameterField "beta_i", parameterField "global_phase"]
  | rotateX | rotateY | rotateZ | phaseShiftState0 | phaseShiftState1 | gPi | gPi2 =>
    [qubit, theta]
  | rotateXY => [qubit, theta, phi]
  | rotateSpherical =>
    [qubit, theta, parameterField "spherical_theta", parameterField "spherical_phi"]
  | identity | pauliX | pauliY | pauliZ | sqrtPauliX | invSqrtPauliX | sqrtPauliY
  | invSqrtPauliY | sGate | invSGate | tGate | invTGate | hadamard => [qubit]

abbrev TwoKind.fields : TwoKind → List Field
  | cnot | swap | iSwap | fSwap | sqrtISwap | invSqrtISwap | controlledPauliY
  | controlledPauliZ | molmerSorensenXX | echoCrossResonance => [control, target]
  | xy | controlledPhaseShift | variableMSXX | controlledRotateX => [control, target, theta]
  | givens | givensLittleEndian | controlledRotateXY | phaseShiftedControlledPhase =>
    [control, target, theta, phi]
  | spinInteraction | qsim =>
    [control, target, parameterField "x", parameterField "y", parameterField "z"]
  | fsim =>
    [control, target, parameterField "t", parameterField "u", parameterField "delta"]
  | bogoliubov =>
    [control, target, parameterField "delta_real", parameterField "delta_imag"]
  | pmInteraction => [control, target, parameterField "t"]
  | complexPMInteraction =>
    [control, target, parameterField "t_real", parameterField "t_imag"]
  | phaseShiftedControlledZ => [control, target, phi]

abbrev ThreeKind.fields : ThreeKind → List Field
  | controlledControlledPauliZ | toffoli =>
    [qubitField "control_0", qubitField "control_1", target]
  | controlledControlledPhaseShift =>
    [qubitField "control_0", qubitField "control_1", target, theta]
  | controlledSwap => [control, qubitField "target_0", qubitField "target_1"]
  | phaseShiftedControlledControlledZ =>
    [qubitField "control_0", qubitField "control_1", target, phi]
  | phaseShiftedControlledControlledPhase =>
    [qubitField "control_0", qubitField "control_1", target, theta, phi]

abbrev FourKind.fields : FourKind → List Field
  | tripleControlledPauliX | tripleControlledPauliZ =>
    [qubitField "control_0", qubitField "control_1", qubitField "control_2", target]
  | tripleControlledPhaseShift =>
    [qubitField "control_0", qubitField "control_1", qubitField "control_2", target, theta]

abbrev RegisterKind.fields : RegisterKind → List Field
  | ms | zz => [qubitsField, theta]
  | cnot => [qubitsField]
  | qft => [qubitsField, ⟨"swaps", .flag⟩, ⟨"inverse", .flag⟩]

/-- The fields of a kind of operations, in the order in which they are given. -/
abbrev Kind.fields : Kind → List Field
  | single k => k.fields
  | two k => k.fields
  | three k => k.fields
  | four k => k.fields
  | register k => k.fields
  | call => [⟨"gate_name", .name⟩, qubitsField, ⟨"free_parameters", .parameters⟩]

/-! ## Names -/

def SingleKind.name : SingleKind → String
  | general => "SingleQubitGate"
  | identity => "Identity"
  | rotateX => "RotateX"
  | rotateY => "RotateY"
  | rotateZ => "RotateZ"
  | rotateXY => "RotateXY"
  | rotateSpherical => "RotateAroundSphericalAxis"
  | phaseShiftState0 => "PhaseShiftState0"
  | phaseShiftState1 => "PhaseShiftState1"
  | pauliX => "PauliX"
  | pauliY => "PauliY"
  | pauliZ => "PauliZ"
  | sqrtPauliX => "SqrtPauliX"
  | invSqrtPauliX => "InvSqrtPauliX"
  | sqrtPauliY => "SqrtPauliY"
  | invSqrtPauliY => "InvSqrtPauliY"
  | sGate => "SGate"
  | invSGate => "InvSGate"
  | tGate => "TGate"
  | invTGate => "InvTGate"
  | hadamard => "Hadamard"
  | gPi => "GPi"
  | gPi2 => "GPi2"

def TwoKind.name : TwoKind → String
  | cnot => "CNOT"
  | swap => "SWAP"
  | iSwap => "ISwap"
  | fSwap => "FSwap"
  | sqrtISwap => "SqrtISwap"
  | invSqrtISwap => "InvSqrtISwap"
  | controlledPauliY => "ControlledPauliY"
  | controlledPauliZ => "ControlledPauliZ"
  | molmerSorensenXX => "MolmerSorensenXX"
  | echoCrossResonance => "EchoCrossResonance"
  | xy => "XY"
  | controlledPhaseShift => "ControlledPhaseShift"
  | variableMSXX => "VariableMSXX"
  | givens => "GivensRotation"
  | givensLittleEndian => "GivensRotationLittleEndian"
  | controlledRotateX => "ControlledRotateX"
  | controlledRotateXY => "ControlledRotateXY"
  | spinInteraction => "SpinInteraction"
  | qsim => "Qsim"
  | fsim => "Fsim"
  | bogoliubov => "Bogoliubov"
  | pmInteraction => "PMInteraction"
  | complexPMInteraction => "ComplexPMInteraction"
  | phaseShiftedControlledZ => "PhaseShiftedControlledZ"
  | phaseShiftedControlledPhase => "PhaseShiftedControlledPhase"

def ThreeKind.name : ThreeKind → String
  | controlledControlledPauliZ => "ControlledControlledPauliZ"
  | controlledControlledPhaseShift => "ControlledControlledPhaseShift"
  | toffoli => "Toffoli"
  | controlledSwap => "ControlledSWAP"
  | phaseShiftedControlledControlledZ => "PhaseShiftedControlledControlledZ"
  | phaseShiftedControlledControlledPhase => "PhaseShiftedControlledControlledPhase"

def FourKind.name : FourKind → String
  | tripleControlledPauliX => "TripleControlledPauliX"
  | tripleControlledPauliZ => "TripleControlledPauliZ"
  | tripleControlledPhaseShift => "TripleControlledPhaseShift"

def RegisterKind.name : RegisterKind → String
  | ms => "MultiQubitMS"
  | zz => "MultiQubitZZ"
  | cnot => "MultiQubitCNOT"
  | qft => "QFT"

/-- The name of a kind of operations. -/
def Kind.name : Kind → String
  | single k => k.name
  | two k => k.name
  | three k => k.name
  | four k => k.name
  | register k => k.name
  | call => "CallDefinedGate"

/-- All kinds of operations in the order of their definition. -/
def Kind.all : List Kind :=
  ([.general, .identity, .rotateX, .rotateY, .rotateZ, .rotateXY, .rotateSpherical,
    .phaseShiftState0, .phaseShiftState1, .pauliX, .pauliY, .pauliZ, .sqrtPauliX,
    .invSqrtPauliX, .sqrtPauliY, .invSqrtPauliY, .sGate, .invSGate, .tGate, .invTGate,
    .hadamard, .gPi, .gPi2].map Kind.single) ++
  ([.cnot, .swap, .iSwap, .fSwap, .sqrtISwap, .invSqrtISwap, .controlledPauliY,
    .controlledPauliZ, .molmerSorensenXX, .echoCrossResonance, .xy, .controlledPhaseShift,
    .variableMSXX, .givens, .givensLittleEndian, .controlledRotateX, .controlledRotateXY,
    .spinInteraction, .qsim, .fsim, .bogoliubov, .pmInteraction, .complexPMInteraction,
    .phaseShiftedControlledZ, .phaseShiftedControlledPhase].map Kind.two) ++
  ([.controlledControlledPauliZ, .controlledControlledPhaseShift, .toffoli, .controlledSwap,
    .phaseShiftedControlledControlledZ, .phaseShiftedControlledControlledPhase].map Kind.three) ++
  ([.tripleControlledPauliX, .tripleControlledPauliZ, .tripleControlledPhaseShift].map
    Kind.four) ++
  ([.ms, .zz, .cnot, .qft].map Kind.register) ++ [.call]

/-- The kind with a given name. -/
def Kind.ofName? (name : String) : Option Kind := Kind.all.find? fun k => k.name == name

/-! ## Families -/

/-- The families of operations. -/
inductive Family
  | operation | gate | single | two | three | four | register
deriving DecidableEq, Repr

def Family.name : Family → String
  | operation => "Operation"
  | gate => "GateOperation"
  | single => "SingleQubitGateOperation"
  | two => "TwoQubitGateOperation"
  | three => "ThreeQubitGateOperation"
  | four => "FourQubitGateOperation"
  | register => "MultiQubitGateOperation"

def Family.all : List Family := [.operation, .gate, .single, .two, .three, .four, .register]

def Family.ofName? (name : String) : Option Family := Family.all.find? fun f => f.name == name

/-- The smallest family that a kind belongs to. -/
def Kind.family : Kind → Family
  | single _ => .single
  | two _ => .two
  | three _ => .three
  | four _ => .four
  | register _ => .register
  | call => .operation

/-- Whether a kind is a gate, which has a unitary matrix. -/
def Kind.isGate (k : Kind) : Bool := k != .call

/-- Whether a kind belongs to a family. -/
def Kind.isIn (k : Kind) : Family → Bool
  | .operation => true
  | .gate => k.isGate
  | f => k.family == f

/-- Whether a kind is, or belongs to, what a name stands for. -/
def Kind.isCalled (k : Kind) (name : String) : Bool :=
  k.name == name || ((Family.ofName? name).map k.isIn).getD false

/-- The group of definitions that a kind stands in. -/
def Kind.group : Kind → String
  | single _ => "single_qubit_gates"
  | two _ => "two_qubit_gates"
  | three _ => "three_qubit_gates"
  | four _ => "four_qubit_gates"
  | register _ | call => "multi_qubit_gates"

/-! ## Rotations -/

/-- Whether the angle theta of a kind can be multiplied, which raises the gate to a power. -/
def Kind.isRotation : Kind → Bool
  | single k =>
    [.rotateX, .rotateY, .rotateZ, .rotateXY, .rotateSpherical, .phaseShiftState0,
      .phaseShiftState1].contains k
  | two k =>
    [.xy, .controlledPhaseShift, .variableMSXX, .givens, .givensLittleEndian,
      .controlledRotateX, .controlledRotateXY].contains k
  | three k => k == .controlledControlledPhaseShift
  | four k => k == .tripleControlledPhaseShift
  | register k => k == .ms || k == .zz
  | call => false

/-- Whether a kind is tagged as a rotation. Controlled rotations around an axis in the plane,
and those of whole registers, are not. -/
def Kind.isTaggedRotation (k : Kind) : Bool :=
  k.isRotation &&
    !(([.controlledRotateX, .controlledRotateXY].map two) ++ ([.ms, .zz].map register)).contains k

/-- Whether a kind has an equivalent circuit of smaller gates. -/
def Kind.isComposite : Kind → Bool
  | three _ | four _ | register _ => true
  | _ => false

/-! ## Tags and versions -/

/-- The family that a kind is tagged with. Gates on four qubits count as gates of a register. -/
def Kind.taggedFamily : Kind → Family
  | four _ | call => .register
  | k => k.family

/-- The classification of a kind, from the most general tag to its own name. -/
def Kind.tags (k : Kind) : List String :=
  [Family.operation.name] ++ (if k.isGate then [Family.gate.name] else []) ++
    [k.taggedFamily.name] ++ (if k.isTaggedRotation then ["Rotation"] else []) ++ [k.name]

/-- The minor number of the first version that knows a kind; the major number is one. -/
def Kind.minorVersion : Kind → Nat
  | single k =>
    match k with
    | .identity => 7
    | .rotateXY => 3
    | .gPi | .gPi2 => 4
    | .sqrtPauliY | .invSqrtPauliY | .invSGate | .invTGate => 15
    | _ => 0
  | two k =>
    match k with
    | .echoCrossResonance => 8
    | .controlledRotateX | .controlledRotateXY => 3
    | .phaseShiftedControlledZ | .phaseShiftedControlledPhase => 2
    | _ => 0
  | three k =>
    match k with
    | .controlledControlledPauliZ | .controlledControlledPhaseShift | .toffoli => 3
    | _ => 5
  | four _ => 15
  | register k =>
    match k with
    | .ms | .zz => 0
    | .cnot => 10
    | .qft => 8
  | call => 13

/-- The first version that knows a kind. -/
def Kind.version (k : Kind) : Nat × Nat × Nat := (1, k.minorVersion, 0)

end QuantumGates
