import QuantumCircuit.Circuit.Build

/-! Inlining boxes. A box is replaced by the commands of its circuit, themselves
without boxes, with the circuit's units renamed to the units the box is applied to.
The condition of a box passes to each of its commands; a command takes one condition
at most. A circuit that permutes its qubits cannot be written as a list of commands. -/

namespace QuantumCircuit

/-- The unit outside a box for a unit of its circuit, from pairs of both. -/
def rewired {α : Type} [DecidableEq α] (pairs : List (α × α))
    (missing : α → Option String → Error) (a : α) : Except Error α :=
  match pairs.lookup a with
  | some b => .ok b
  | none => .error (missing a (some OpType.circBox.name))

/-- The units of a box's circuit with the units the box is applied to. -/
structure Wiring where
  qubits : List (Qubit × Qubit)
  bits : List (Bit × Bit)

namespace Wiring

def qubit (w : Wiring) : Qubit → Except Error Qubit := rewired w.qubits .qubitNotFound

def bit (w : Wiring) : Bit → Except Error Bit := rewired w.bits .bitNotFound

/-- The condition of an inlined command, from its own and from that of its box. -/
def condition (w : Wiring) (guard : Option Condition) (command : Command) :
    Except Error (Option Condition) :=
  match command.condition, guard with
  | some _, some _ => .error (.nestedCondition command.name)
  | some own, none => (own.mapBits w.bit).map some
  | none, guard => .ok guard

/-- The command on the units outside the box. -/
def command (w : Wiring) (guard : Option Condition) (command : Command) :
    Except Error Command := do
  let condition ← w.condition guard command
  let qubits ← command.qubits.mapM w.qubit
  let bits ← command.bits.mapM w.bit
  return { command with qubits := qubits, bits := bits, condition := condition }

end Wiring

mutual

/-- The commands of a circuit without boxes. -/
def Circuit.inlined : Circuit → Except Error (List Command)
  | ⟨_, _, _, _, commands, _, _, _⟩ => inlineAll commands

def inlineAll : List Command → Except Error (List Command)
  | [] => .ok []
  | command :: commands => do
    let first ← command.inlined
    let rest ← inlineAll commands
    return first ++ rest

/-- The commands that stand for one command. -/
def Command.inlined : Command → Except Error (List Command)
  | ⟨.box id body, qubits, bits, condition, _⟩ =>
    if body.permutation.isEmpty then do
      let inner ← body.inlined
      inner.mapM (Wiring.command ⟨body.qubits.zip qubits, body.bits.zip bits⟩ condition)
    else .error (.unsupportedOp (.permutedBox id))
  | command => .ok [command]

end

/-- Inlines all boxes and gives the number of those in the circuit itself. -/
def Build.inline : Build Nat := do
  let c ← get
  let commands ← Build.ofExcept c.inlined
  set { c with commands := commands }
  return c.commands.countP fun command => command.op.isBox

end QuantumCircuit
