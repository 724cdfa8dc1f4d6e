import QuantumCircuit.Circuit.Equality
import QuantumCircuit.CommandLine.Machine
import QuantumCircuit.Main
import QuantumCircuit.Proofs.Acceptance
import QuantumCircuit.Proofs.Agreement
import QuantumCircuit.Proofs.Atomicity
import QuantumCircuit.Proofs.ByteOrder
import QuantumCircuit.Proofs.Canonical
import QuantumCircuit.Proofs.Chains
import QuantumCircuit.Proofs.CommandChecks
import QuantumCircuit.Proofs.Conversion
import QuantumCircuit.Proofs.DerivedRegisters
import QuantumCircuit.Proofs.DirectDependencies
import QuantumCircuit.Proofs.Emission
import QuantumCircuit.Proofs.Flattening
import QuantumCircuit.Proofs.Guards
import QuantumCircuit.Proofs.Layering
import QuantumCircuit.Proofs.Meaning
import QuantumCircuit.Proofs.Obstacles
import QuantumCircuit.Proofs.Outcome
import QuantumCircuit.Proofs.Payloads
import QuantumCircuit.Proofs.Permutations
import QuantumCircuit.Proofs.Refusals
import QuantumCircuit.Proofs.RegisterHandles
import QuantumCircuit.Proofs.Reordering
import QuantumCircuit.Proofs.RunEffects
import QuantumCircuit.Proofs.Satisfaction
import QuantumCircuit.Proofs.Scoping
