import QuantumGates.Datum.Algebra
import QuantumGates.Datum.Builders
import QuantumGates.Datum.Record
import QuantumGates.Datum.Sequence
import QuantumGates.Datum.Store
import QuantumGates.Log
import QuantumGates.Proofs.Circuit.Adjoint
import QuantumGates.Proofs.Circuit.Exchange
import QuantumGates.Proofs.Circuit.Fourier
import QuantumGates.Proofs.Expression.Computation
import QuantumGates.Proofs.Circuit.Ladder
import QuantumGates.Proofs.Circuit.ControlledFlip
import QuantumGates.Proofs.Circuit.ControlledNot
import QuantumGates.Proofs.Circuit.ThreeQubits
import QuantumGates.Proofs.Exact.Conjugate
import QuantumGates.Proofs.Exact.FourierUnitary
import QuantumGates.Proofs.Gate.Blocks
import QuantumGates.Proofs.Gate.SmallGates
import QuantumGates.Proofs.Gate.Unitarity
import QuantumGates.Proofs.Circuit.InverseFourier
import QuantumGates.Proofs.Circuit.ParityRotation
import QuantumGates.Proofs.Circuit.FlipRotation
import QuantumGates.Proofs.Circuit.RenamedGates
import QuantumGates.Proofs.Circuit.Substitution
import QuantumGates.Proofs.Gate.SymbolicProduct
import QuantumGates.Proofs.Gate.ProductTree
import QuantumGates.Proofs.Gate.RotationPowers
import QuantumGates.Proofs.Exact.RealValues
import QuantumGates.Proofs.Circuit.RenamedCircuits
import QuantumGates.Proofs.Exact.Strictness
import QuantumGates.Proofs.Number.HalvedDouble
import QuantumGates.Proofs.Gate.Answers
import QuantumGates.Proofs.Gate.ParameterValues
import QuantumGates.Proofs.Expression.Dependence
import QuantumGates.Proofs.Gate.SubstitutionFaults
import QuantumGates.Proofs.Exact.FunctionValues
import QuantumGates.Proofs.Expression.Separation
import QuantumGates.Proofs.Expression.Grammar
import QuantumGates.Proofs.Expression.Places
import QuantumGates.Proofs.Expression.Enclosed
import QuantumGates.Proofs.Expression.PairedTexts
import QuantumGates.Proofs.Expression.Parts
import QuantumGates.Proofs.Expression.Malformed
import QuantumGates.Proofs.Number.ReadBack
import QuantumGates.Proofs.Circuit.FirstFault
import QuantumGates.Proofs.Circuit.SubstitutedParameters
import QuantumGates.Proofs.Circuit.MappedQubits
import QuantumGates.Proofs.Expression.BoundNames
import QuantumGates.Proofs.Expression.UnboundNames
import QuantumGates.Proofs.Register.Axes
import QuantumGates.Proofs.Register.Embedding
import QuantumGates.Proofs.Gate.GivensPowers
import QuantumGates.Proofs.Number.Comparison
import QuantumGates.Proofs.Gate.Records
import QuantumGates.Proofs.Gate.NormCheck
import QuantumGates.Proofs.Circuit.Additions
import QuantumGates.Proofs.Datum.EqualKeys
import QuantumGates.Proofs.Circuit.FourierGates
import QuantumGates.Proofs.Gate.UnitLaw
import QuantumGates.Proofs.Circuit.CompositeCircuits
import QuantumGates.Proofs.Expression.CaretAsPower
import QuantumGates.Proofs.Expression.CheckedTrees
import QuantumGates.Proofs.Expression.RenamedVariables
import QuantumGates.Proofs.Gate.Interactions
import QuantumGates.Proofs.Gate.StoredRecords
import QuantumGates.Proofs.Circuit.BitReversal
import QuantumGates.Proofs.Circuit.SubsetNetwork
