import QuantumCircuit.OpType
import QuantumCircuit.Unit
import QuantumCircuit.Uuid

/-! Why a circuit, a condition or a document is refused, and the words that say so. -/

namespace QuantumCircuit

/-- Why bits and a value make no condition. -/
inductive ConditionFault where
  | noBits
  | tooWide (width : Nat)
  | doesNotFit (value : UInt64) (width : Nat)
deriving DecidableEq

/-- An operation that is known and cannot be used here. -/
inductive UnsupportedFault where
  | notAGate (type : OpType)
  | boxOfType (type : OpType)
  | conditionalInConditional
  | permutedBox (id : Uuid)
deriving DecidableEq

/-- What is wrong with a document of the right shape. -/
inductive DocumentFault where
  | noConditionalPayload
  | noBoxPayload
  | argumentCount (op : String) (expected got : Nat)
  | repeatedSource (q : Qubit)
  | repeatedTarget (q : Qubit)
  | targetNotSource (q : Qubit)
deriving DecidableEq

/-- A refusal; `op` names the operation in whose course it arose. -/
inductive Error where
  | qubitNotFound (q : Qubit) (op : Option String)
  | bitNotFound (b : Bit) (op : Option String)
  | duplicateUnit (u : UnitId)
  | duplicateRegister (name : String)
  | qubitCountMismatch (op : String) (expected got : Nat)
  | bitCountMismatch (op : String) (expected got : Nat)
  | duplicateQubit (q : Qubit) (op : Option String)
  | duplicateBit (b : Bit) (op : Option String)
  | invalidCondition (fault : ConditionFault)
  | nestedCondition (op : String)
  | unsupportedOp (fault : UnsupportedFault)
  | invalidDocument (fault : DocumentFault)
  | unreadable (failure : Json.Failure)
deriving DecidableEq

def ConditionFault.message : ConditionFault → String
  | .noBits => "condition must read at least one bit"
  | .tooWide width => "condition width " ++ width.repr ++ " exceeds 64"
  | .doesNotFit value width =>
    "value " ++ value.toNat.repr ++ " does not fit in " ++ width.repr ++ " bits"

def UnsupportedFault.message : UnsupportedFault → String
  | .notAGate type => type.name ++ " is not a gate"
  | .boxOfType type => "box of type " ++ type.name
  | .conditionalInConditional => "Conditional nested inside Conditional"
  | .permutedBox id =>
    "cannot inline box " ++ id.text ++ " with a non-identity implicit permutation"

def DocumentFault.message : DocumentFault → String
  | .noConditionalPayload => "Conditional op without conditional payload"
  | .noBoxPayload => "CircBox op without box payload"
  | .argumentCount op expected got =>
    op ++ " expects " ++ expected.repr ++ " arguments, got " ++ got.repr
  | .repeatedSource q => "qubit " ++ q.label ++ " appears twice as a permutation source"
  | .repeatedTarget q => "qubit " ++ q.label ++ " appears twice as a permutation target"
  | .targetNotSource q => "qubit " ++ q.label ++ " is a permutation target but not a source"

namespace Error

/-- Names the operation, where there is one. -/
def context : Option String → String
  | some op => " (op: " ++ op ++ ")"
  | none => ""

/-- The refusal in words. -/
def message : Error → String
  | .qubitNotFound q op => "Qubit " ++ q.label ++ " not found in circuit" ++ context op
  | .bitNotFound b op => "Bit " ++ b.label ++ " not found in circuit" ++ context op
  | .duplicateUnit u => "Unit " ++ u.label ++ " is already declared in circuit"
  | .duplicateRegister name => "Classical register '" ++ name ++ "' already exists"
  | .qubitCountMismatch op expected got =>
    "Operation '" ++ op ++ "' requires " ++ expected.repr ++ " qubits, got " ++ got.repr
  | .bitCountMismatch op expected got =>
    "Operation '" ++ op ++ "' requires " ++ expected.repr ++ " bits, got " ++ got.repr
  | .duplicateQubit q op => "Duplicate qubit " ++ q.label ++ " in operation" ++ context op
  | .duplicateBit b op => "Duplicate bit " ++ b.label ++ " in operation" ++ context op
  | .invalidCondition fault => "Invalid condition: " ++ fault.message
  | .nestedCondition op => "Cannot nest condition on already conditional operation '" ++ op ++ "'"
  | .unsupportedOp fault => "Unsupported operation: " ++ fault.message
  | .invalidDocument fault => "Invalid circuit document: " ++ fault.message
  | .unreadable failure => "JSON error: " ++ failure.message

end Error

/-- A register would have to reach past index 4294967295. -/
inductive Overflow where
  | pastLastIndex
deriving DecidableEq

def Overflow.message : Overflow → String
  | .pastLastIndex => "attempt to add with overflow"

end QuantumCircuit
