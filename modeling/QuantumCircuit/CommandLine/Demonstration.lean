import QuantumCircuit.Document.Circuit

/-! The demonstration circuit: a qubit is flipped and measured, a gate runs if the
measured bit is not set, and a box if another bit is. -/

namespace QuantumCircuit.CommandLine

/-- The circuit inside the box. -/
def entangler : Except Error Circuit :=
  (Circuit.withQubits 2).built (Build.gate .cx [.ofIndex 0, .ofIndex 1])

def demonstration : Except Error Circuit := do
  let body ← entangler
  (Circuit.withQubits 2).built do
    let c ← Build.declareBitRegister "c" 2
    Build.gate .x [.ofIndex 0]
    Build.measure (.ofIndex 0) (c.bit 0)
    Build.guardedGate .z [.ofIndex 1] (.ifNotBit (c.bit 0))
    Build.box body.boxId body [.ofIndex 0, .ofIndex 1] (some (.ifBit (c.bit 1)))

end QuantumCircuit.CommandLine
