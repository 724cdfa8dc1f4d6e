import QuantumCircuit.Error

/-! Documents: circuits as they are written down. An operation names its type and
carries a box or a condition beside it; a guarded command has the type `Conditional`
and lists the bits of its condition in front of its arguments. A document need not
describe a circuit: nothing says that a payload goes with the type, that arguments
are declared, or that their number is right. -/

namespace QuantumCircuit

mutual

structure Document where
  bits : List UnitId
  commands : List Document.Command
  permutation : List (UnitId × UnitId)
  name : Option String
  phase : String
  qubits : List UnitId

structure Document.Command where
  args : List UnitId
  op : Document.Op
  opgroup : Option String

structure Document.Op where
  box : Option Document.Box
  conditional : Option Document.Conditional
  type : OpType

structure Document.Box where
  circuit : Document
  id : Uuid
  type : OpType

structure Document.Conditional where
  op : Document.Op
  value : UInt64
  width : UInt32

end

/-- An operation without payloads. -/
def Document.Op.plain (type : OpType) : Document.Op := ⟨none, none, type⟩

end QuantumCircuit
