import QuantumCircuit.Condition

/-! Circuits and their commands. A command applies an operation to qubits and bits,
perhaps under a condition; an operation may be a box, which holds a circuit of its
own, so the types refer to each other. Nothing here is checked against declared
units: that is done when a command is added to a circuit.

The declared units stand in lists, in the order of their declaration, and once more
in sets, in which they are looked up. The implicit permutation is held as the pairs
that move a qubit, in the order in which the moved qubits are declared, so circuits
that permute alike are equal. -/

namespace QuantumCircuit

mutual

inductive Operation where
  /-- A gate of the given type; only a unitary one can be added to a circuit. -/
  | gate (type : OpType)
  | measure
  | reset
  | box (id : Uuid) (body : Circuit)

structure Command where
  op : Operation
  qubits : List Qubit
  /-- The bits that the operation writes. -/
  bits : List Bit
  condition : Option Condition
  opgroup : Option String

structure Circuit where
  name : Option String
  /-- The global phase, a symbolic expression. -/
  phase : String
  qubits : List Qubit
  bits : List Bit
  commands : List Command
  permutation : List (Qubit × Qubit)
  qubitSet : Std.ExtTreeSet Qubit
  bitSet : Std.ExtTreeSet Bit

end

/-! ### Operations -/

namespace Operation

/-- The type of the operation itself, whether it is guarded or not. -/
def type : Operation → OpType
  | .gate type => type
  | .measure => .measure
  | .reset => .reset
  | .box _ _ => .circBox

def name (op : Operation) : String := op.type.name

def qubitCount : Operation → Nat
  | .box _ body => body.qubits.length
  | op => op.type.qubitArity.getD 0

/-- How many bits the operation writes; bits of a condition do not count. -/
def bitCount : Operation → Nat
  | .box _ body => body.bits.length
  | op => op.type.bitArity.getD 0

/-- The operation of a type, a gate unless it is a measurement or a reset. -/
def ofType : OpType → Operation
  | .measure => .measure
  | .reset => .reset
  | type => .gate type

def isMeasure : Operation → Bool
  | .measure => true
  | _ => false

def isBox : Operation → Bool
  | .box _ _ => true
  | _ => false

end Operation

/-! ### Commands -/

namespace Command

def gate (type : OpType) (qubits : List Qubit) : Command := ⟨.ofType type, qubits, [], none, none⟩

def measure (q : Qubit) (b : Bit) : Command := ⟨.measure, [q], [b], none, none⟩

def reset (q : Qubit) : Command := ⟨.reset, [q], [], none, none⟩

def box (id : Uuid) (body : Circuit) (qubits : List Qubit) (bits : List Bit) : Command :=
  ⟨.box id body, qubits, bits, none, none⟩

def name (c : Command) : String := c.op.name

/-- The type under which the command is written down. -/
def type (c : Command) : OpType := if c.condition.isSome then .conditional else c.op.type

/-- The bits that the condition reads. -/
def conditionBits (c : Command) : List Bit :=
  match c.condition with
  | some condition => condition.bits
  | none => []

/-- All bits read or written, those of the condition first. -/
def allBits (c : Command) : List Bit := c.conditionBits ++ c.bits

/-- The units of the command in the order in which they are written down. -/
def args (c : Command) : List UnitId :=
  c.conditionBits.map Bit.id ++ c.qubits.map Qubit.id ++ c.bits.map Bit.id

end Command

/-! ### Circuits -/

namespace Circuit

/-- A circuit without units. -/
def empty : Circuit := ⟨none, "0.0", [], [], [], [], ∅, ∅⟩

/-- A circuit on the qubits `q[0]`, …, `q[n - 1]`. -/
def withQubits (n : UInt32) : Circuit :=
  let qubits := (indicesBelow n).map Qubit.ofIndex
  { empty with qubits := qubits, qubitSet := .ofList qubits }

def named (name : String) (n : UInt32) : Circuit := { withQubits n with name := some name }

/-- How many commands apply an operation of that type, guarded or not. -/
def countOps (c : Circuit) (type : OpType) : Nat :=
  c.commands.countP fun command => command.op.type == type

instance : Inhabited Circuit := ⟨empty⟩

end Circuit

end QuantumCircuit
