import QuantumCircuit.Circuit.Basic

/-! Building circuits. An action changes a circuit and either gives a result or is
refused; the circuit it leaves behind is there in both cases. Units are declared once,
and a command is added only when it fits its operation and the declared units. -/

namespace QuantumCircuit

/-- Actions on a circuit that may be refused. -/
abbrev Build := EStateM Error Circuit

/-! ### Checking a command -/

/-- Each unit must be declared and differ from those seen before it. -/
def checkUnits {α : Type} [Ord α] [Std.TransOrd α] (declared : Std.ExtTreeSet α)
    (missing repeated : α → Error) (seen : Std.ExtTreeSet α) : List α → Except Error Unit
  | [] => .ok ()
  | u :: us =>
    if u ∉ declared then .error (missing u)
    else if u ∈ seen then .error (repeated u)
    else checkUnits declared missing repeated (seen.insert u) us

/-- A gate must be of a unitary type. -/
def Operation.check : Operation → Except Error Unit
  | .gate type => if type.isGate then .ok () else .error (.unsupportedOp (.notAGate type))
  | _ => .ok ()

/-- Whether `command` may be added: the first of its faults, or none. -/
def Circuit.check (c : Circuit) (command : Command) : Except Error Unit := do
  let op := command.op
  op.check
  if command.qubits.length ≠ op.qubitCount then
    throw (.qubitCountMismatch op.name op.qubitCount command.qubits.length)
  if command.bits.length ≠ op.bitCount then
    throw (.bitCountMismatch op.name op.bitCount command.bits.length)
  checkUnits c.qubitSet (.qubitNotFound · op.name) (.duplicateQubit · op.name) ∅ command.qubits
  checkUnits c.bitSet (.bitNotFound · op.name) (.duplicateBit · op.name) ∅ command.allBits

/-! ### Kinds of units -/

/-- The units of one kind: where a circuit has them, listed and looked up, and the circuit
with others in their place. -/
structure Kind (α : Type) [Ord α] [Std.TransOrd α] where
  id : α → UnitId
  list : Circuit → List α
  set : Circuit → Std.ExtTreeSet α
  put : Circuit → List α → Std.ExtTreeSet α → Circuit
  list_put : ∀ c us s, list (put c us s) = us
  set_put : ∀ c us s, set (put c us s) = s
  put_put : ∀ c us s us' s', put (put c us s) us' s' = put c us' s'
  put_self : ∀ c, put c (list c) (set c) = c

namespace Kind

def qubit : Kind Qubit where
  id := Qubit.id
  list c := c.qubits
  set c := c.qubitSet
  put c qubits set := { c with qubits := qubits, qubitSet := set }
  list_put _ _ _ := rfl
  set_put _ _ _ := rfl
  put_put _ _ _ _ _ := rfl
  put_self c := by cases c; rfl

def bit : Kind Bit where
  id := Bit.id
  list c := c.bits
  set c := c.bitSet
  put c bits set := { c with bits := bits, bitSet := set }
  list_put _ _ _ := rfl
  set_put _ _ _ := rfl
  put_put _ _ _ _ _ := rfl
  put_self c := by cases c; rfl

/-- The circuit with more units behind those that are declared. -/
def append {α : Type} [Ord α] [Std.TransOrd α] (k : Kind α) (c : Circuit) (us : List α) :
    Circuit :=
  k.put c (k.list c ++ us) ((k.set c).insertMany us)

end Kind

/-! ### Actions -/

/-- The first member of a list that is in `seen` or repeats one before it. -/
def firstRepeat? {α : Type} [Ord α] [Std.TransOrd α] (seen : Std.ExtTreeSet α) :
    List α → Option α
  | [] => none
  | a :: as => if a ∈ seen then some a else firstRepeat? (seen.insert a) as

namespace Build

/-- Gives a result that was computed apart from the circuit. -/
def ofExcept {α : Type} : Except Error α → Build α
  | .ok a => pure a
  | .error e => throw e

/-! ### Units -/

section Units

variable {α : Type} [Ord α] [Std.TransOrd α]

/-- Declares a unit. -/
def declare (k : Kind α) (u : α) : Build Unit := do
  if u ∈ k.set (← get) then throw (.duplicateUnit (k.id u))
  modify (k.append · [u])

/-- Declares all of the units, or none of them. -/
def declareAll (k : Kind α) (us : List α) : Build Unit := do
  match firstRepeat? (k.set (← get)) us with
  | some u => throw (.duplicateUnit (k.id u))
  | none => modify (k.append · us)

/-- Declares the units of a register under a name that no unit of the kind has yet. -/
def declareRegister (k : Kind α) (name : String) (us : List α) : Build Unit := do
  if (k.list (← get)).any fun u => (k.id u).register == name then throw (.duplicateRegister name)
  modify (k.append · us)

end Units

def declareQubit (q : Qubit) : Build Unit := declare .qubit q

def declareBit (b : Bit) : Build Unit := declare .bit b

def declareQubits (qubits : List Qubit) : Build Unit := declareAll .qubit qubits

def declareBits (bits : List Bit) : Build Unit := declareAll .bit bits

/-- Declares a run of qubits under a name that no qubit has yet. -/
def declareQubitRegister (name : String) (size : UInt32) : Build (List Qubit) := do
  let qubits := (indicesBelow size).map (Qubit.inRegister name)
  declareRegister .qubit name qubits
  return qubits

/-- Declares a run of bits under a name that no bit has yet. -/
def declareBitRegister (name : String) (size : UInt32) : Build Register := do
  let register : Register := ⟨name, size⟩
  declareRegister .bit name register.bits
  return register

/-! ### Commands -/

def add (command : Command) : Build Unit := do
  ofExcept ((← get).check command)
  modify fun c => { c with commands := c.commands ++ [command] }

def gate (type : OpType) (qubits : List Qubit) : Build Unit := add (.gate type qubits)

def guardedGate (type : OpType) (qubits : List Qubit) (condition : Condition) : Build Unit :=
  add { Command.gate type qubits with condition := some condition }

def measure (q : Qubit) (b : Bit) : Build Unit := add (.measure q b)

def reset (q : Qubit) : Build Unit := add (.reset q)

/-- Adds a box whose circuit writes no bits. -/
def box (id : Uuid) (body : Circuit) (qubits : List Qubit) (condition : Option Condition) :
    Build Unit :=
  add { Command.box id body qubits [] with condition := condition }

/-! ### Name and phase -/

def setName (name : String) : Build Unit := modify fun c => { c with name := some name }

def setPhase (phase : String) : Build Unit := modify fun c => { c with phase := phase }

end Build

/-- Runs an action on a circuit for the circuit it leaves behind. -/
def Circuit.built {α : Type} (c : Circuit) (action : Build α) : Except Error Circuit :=
  match action.run c with
  | .ok _ c => .ok c
  | .error e _ => .error e

end QuantumCircuit
