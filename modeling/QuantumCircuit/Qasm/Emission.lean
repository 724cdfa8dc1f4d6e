import QuantumCircuit.Circuit.Inline
import QuantumCircuit.Circuit.Permutation
import QuantumCircuit.Circuit.Registers
import QuantumCircuit.Qasm.Program

/-! The OpenQASM 3 program of a circuit. Boxes are inlined first. Registers are found
in one pass over the units, which must have one index each; a condition on several
bits must be on a whole register in index order. -/

namespace QuantumCircuit.Qasm

/-- What has no form in OpenQASM 3. -/
inductive Fault where
  | permutation
  | notSingleIndex (u : UnitId)
  | sharedName (name : String)
  | partialRegister (condition : Condition)
  | notAGate (type : OpType)
  | boxLeft
  | measureWithoutBit

def Fault.message : Fault → String
  | .permutation => "implicit qubit permutation has no QASM3 form"
  | .notSingleIndex u => "unit " ++ u.label ++ " has a multi-dimensional index"
  | .sharedName name => "register name '" ++ name ++ "' is used for both qubits and bits"
  | .partialRegister condition =>
    "condition " ++ condition.label ++ " does not cover a whole register"
  | .notAGate type => type.name ++ " is not a gate"
  | .boxLeft => "CircBox left after decomposition"
  | .measureWithoutBit => "Measure has no bit"

/-- Why a circuit has no program. -/
inductive Refusal where
  | unsupported (fault : Fault)
  | circuit (cause : Error)
  | overflow (cause : Overflow)

def Refusal.message : Refusal → String
  | .unsupported fault => "Unsupported in OpenQASM 3 output: " ++ fault.message
  | .circuit cause => "Circuit error: " ++ cause.message
  | .overflow o => o.message

/-! ### Registers -/

/-- Makes the register of that name reach up to `size`; a new name comes last. -/
def extend (name : String) (size : UInt32) : List Register → List Register
  | [] => [⟨name, size⟩]
  | r :: rs =>
    if r.name = name then ⟨name, max r.size size⟩ :: rs else r :: extend name size rs

/-- Adds units to the registers found so far. -/
def registersFrom (found : List Register) : List UnitId → Except Refusal (List Register)
  | [] => .ok found
  | u :: us =>
    match u.single? with
    | none => .error (.unsupported (.notSingleIndex u))
    | some i =>
      match pastIndex i with
      | .error e => .error (.overflow e)
      | .ok size => registersFrom (extend u.register size found) us

/-- The registers of a list of units, in the order in which their names first occur. -/
def registersOf (units : List UnitId) : Except Refusal (List Register) := registersFrom [] units

/-! ### Statements -/

def actionOf (command : Command) : Except Refusal Action :=
  match command.op with
  | .gate type =>
    match gateName? type with
    | some name => .ok (.gate name command.qubits)
    | none => .error (.unsupported (.notAGate type))
  | .measure =>
    match command.bits with
    | target :: _ => .ok (.measure command.qubits target)
    | [] => .error (.unsupported .measureWithoutBit)
  | .reset => .ok (.reset command.qubits)
  | .box _ _ => .error (.unsupported .boxLeft)

/-- Whether the bits are those of `name` from index `i` on, in order. -/
def consecutiveFrom (name : String) (i : UInt32) : List Bit → Bool
  | [] => true
  | b :: bs => b.id == ⟨name, [i]⟩ && consecutiveFrom name (i + 1) bs

/-- Whether the bits are all bits of register `name`, in index order. -/
def coversRegister (registers : List Register) (name : String) (bits : List Bit) : Bool :=
  (match registers.find? fun r => r.name == name with
    | some r => r.size.toNat == bits.length
    | none => false)
  && consecutiveFrom name 0 bits

/-- The guard of a condition, given the registers of bits. -/
def guardOf (registers : List Register) (condition : Condition) : Except Refusal Guard :=
  match condition.bits with
  | [b] => .ok (.bit b condition.value)
  | bits =>
    let name := (bits.head?.map fun b => b.id.register).getD ""
    if coversRegister registers name bits then .ok (.register name condition.value)
    else .error (.unsupported (.partialRegister condition))

def statementOf (registers : List Register) (command : Command) : Except Refusal Statement := do
  let action ← actionOf command
  match command.condition with
  | none => return ⟨none, action⟩
  | some condition => return ⟨some (← guardOf registers condition), action⟩

/-! ### Programs -/

/-- The program of a circuit on its units and with the given commands. -/
def programOf (c : Circuit) (commands : List Command) : Except Refusal Program := do
  let qubits ← registersOf (c.qubits.map Qubit.id)
  let bits ← registersOf (c.bits.map Bit.id)
  match bits.find? fun r => qubits.any fun q => q.name == r.name with
  | some r => throw (.unsupported (.sharedName r.name))
  | none => pure ()
  return ⟨qubits, bits, ← commands.mapM (statementOf bits)⟩

/-- The program of a circuit. -/
def program (c : Circuit) : Except Refusal Program :=
  if c.hasIdentityPermutation then
    match c.inlined with
    | .error e => .error (.circuit e)
    | .ok commands => programOf c commands
  else .error (.unsupported .permutation)

/-- The text of a circuit's program. -/
def emit (c : Circuit) : Except Refusal String := (program c).map Program.text

end QuantumCircuit.Qasm
