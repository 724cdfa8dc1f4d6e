import QuantumCircuit.Circuit.Permutation
import QuantumCircuit.Document.Json
import QuantumCircuit.Document.Read

/-! Circuits and their documents. Writing lists for every qubit where it ends up.
Reading builds the circuit step by step, in the order name, phase, qubits, bits,
commands, permutation, so the first refusal in that order decides. -/

namespace QuantumCircuit

/-! ### Writing -/

mutual

def Circuit.document : Circuit → Document
  | ⟨name, phase, qubits, bits, commands, permutation, _, _⟩ =>
    ⟨bits.map Bit.id, commandDocuments commands,
      qubits.map fun q => (q.id, ((permutation.lookup q).getD q).id), name, phase,
      qubits.map Qubit.id⟩

def commandDocuments : List Command → List Document.Command
  | [] => []
  | c :: cs => c.document :: commandDocuments cs

def Command.document : Command → Document.Command
  | ⟨op, qubits, bits, condition, opgroup⟩ =>
    let inner := op.document
    ⟨Command.args ⟨op, qubits, bits, condition, opgroup⟩,
      match condition with
      | some condition =>
        ⟨none, some ⟨inner, condition.value, UInt32.ofNat condition.width⟩, .conditional⟩
      | none => inner,
      opgroup⟩

def Operation.document : Operation → Document.Op
  | .box id body => ⟨some ⟨body.document, id, .circBox⟩, none, .circBox⟩
  | .gate type => .plain type
  | .measure => .plain .measure
  | .reset => .plain .reset

end

/-! ### Reading -/

/-- Splits the arguments of an operation; a guard says how many bits it reads and which
value they must spell. -/
def Command.ofArgs (args : List UnitId) (guard : Option (Nat × UInt64)) (op : Operation)
    (opgroup : Option String) : Except Error Command := do
  let width := (guard.map Prod.fst).getD 0
  let expected := width + op.qubitCount + op.bitCount
  if args.length ≠ expected then
    throw (.invalidDocument (.argumentCount op.name expected args.length))
  let qubits := (args.drop width).take op.qubitCount
  let bits := args.drop (width + op.qubitCount)
  let condition ← match guard with
    | some (_, value) => some <$> Condition.make ((args.take width).map Bit.mk) value
    | none => pure none
  return ⟨op, qubits.map Qubit.mk, bits.map Bit.mk, condition, opgroup⟩

mutual

/-- The circuit that a document describes. -/
def Document.load : Document → Except Error Circuit
  | ⟨bits, commands, permutation, name, phase, qubits⟩ =>
    Circuit.built { Circuit.empty with name := name, phase := phase } do
      Build.declareQubits (qubits.map Qubit.mk)
      Build.declareBits (bits.map Bit.mk)
      Document.loadCommands commands
      Build.setPermutation (permutation.map fun (u, v) => (⟨u⟩, ⟨v⟩))

/-- Adds the commands one after the other. -/
def Document.loadCommands : List Document.Command → Build Unit
  | [] => pure ()
  | c :: cs => do
    Build.add (← Build.ofExcept c.load)
    Document.loadCommands cs

def Document.Command.load : Document.Command → Except Error QuantumCircuit.Command
  | ⟨_, ⟨_, none, .conditional⟩, _⟩ => .error (.invalidDocument .noConditionalPayload)
  | ⟨args, ⟨_, some ⟨op, value, width⟩, .conditional⟩, opgroup⟩ => do
    QuantumCircuit.Command.ofArgs args (some (width.toNat, value)) (← op.load) opgroup
  | ⟨args, op, opgroup⟩ => do QuantumCircuit.Command.ofArgs args none (← op.load) opgroup

def Document.Op.load : Document.Op → Except Error Operation
  | ⟨none, _, .circBox⟩ => .error (.invalidDocument .noBoxPayload)
  | ⟨some ⟨circuit, id, type⟩, _, .circBox⟩ =>
    if type = .circBox then do return .box id (← circuit.load)
    else .error (.unsupportedOp (.boxOfType type))
  | ⟨_, _, .conditional⟩ => .error (.unsupportedOp .conditionalInConditional)
  | ⟨_, _, type⟩ => .ok (Operation.ofType type)

end

/-! ### Texts and values -/

namespace Circuit

/-- The text of the circuit's document, indented or on one line. -/
def text (c : Circuit) (indented : Bool) : String := c.document.json.text indented

/-- The value of the circuit's document, with all keys in ascending order. -/
def value (c : Circuit) : Json := c.document.json.sorted

def ofReading (d : Json.Reading Document) : Except Error Circuit :=
  match d with
  | .ok d => d.load
  | .error f => .error (.unreadable f)

/-- The circuit of a document's text. -/
def ofText (text : String) : Except Error Circuit := ofReading (Document.ofText text)

/-- The circuit of a document's value. -/
def ofValue (v : Json) : Except Error Circuit := ofReading (Document.ofValue v)

/-- The identifier of a box that holds the circuit; equal circuits have equal ones. -/
def boxId (c : Circuit) : Uuid := .named .objectSpace (c.text false).toUTF8.data.toList

end Circuit

end QuantumCircuit
