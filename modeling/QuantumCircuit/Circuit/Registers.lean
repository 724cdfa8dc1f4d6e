import QuantumCircuit.Circuit.Basic

/-! The classical registers of a circuit, as far as its bits tell: a register reaches
up to the largest index among the bits of its name that have exactly one index. -/

namespace QuantumCircuit

/-- One past an index, unless no register can reach there. -/
def pastIndex (i : UInt32) : Except Overflow UInt32 :=
  if i.toNat + 1 < UInt32.size then .ok (i + 1) else .error .pastLastIndex

namespace Circuit

/-- The indices of the bits of that register name, where a bit has exactly one. -/
def registerIndices (c : Circuit) (name : String) : List UInt32 :=
  (c.bits.filter fun b => b.id.register == name).filterMap fun b => b.id.single?

def register? (c : Circuit) (name : String) : Except Overflow (Option Register) :=
  match (c.registerIndices name).max? with
  | none => .ok none
  | some last => (pastIndex last).map fun size => some ⟨name, size⟩

/-- All registers, in the order in which their names first occur. -/
def registers (c : Circuit) : Except Overflow (List Register) :=
  ((c.bits.map fun b => b.id.register).eraseDups.mapM c.register?).map (List.filterMap id)

end Circuit

end QuantumCircuit
