import QuantumCircuit.Circuit.Basic

/-! The order among commands that their wires impose. A command depends directly on
the last command before it on each of its wires: qubits, bits that are written, and
bits that a condition reads. Commands are numbered from zero. A layer holds the
commands that can run at the same time, as early as possible. -/

namespace QuantumCircuit

/-- A wire; a qubit and a bit of the same unit are different wires. -/
inductive Wire where
  | qubit (q : Qubit)
  | bit (b : Bit)
deriving DecidableEq

def Command.wires (c : Command) : List Wire := c.qubits.map .qubit ++ c.allBits.map .bit

namespace Schedule

/-- Puts a number into an ascending list, unless it is there. -/
def insertAscending (n : Nat) : List Nat → List Nat
  | [] => [n]
  | m :: ms =>
    if n < m then n :: m :: ms
    else if n = m then m :: ms
    else m :: insertAscending n ms

/-- Direct dependencies of commands numbered from `i`, given the last command so far on
each wire, the latest first. -/
def predecessorsFrom (i : Nat) (last : List (Wire × Nat)) : List (List Wire) → List (List Nat)
  | [] => []
  | wires :: rest =>
    let users := wires.filterMap fun w => last.lookup w
    users.foldr insertAscending []
      :: predecessorsFrom (i + 1) (wires.map (·, i) ++ last) rest

/-- Layers of commands, from their dependencies and the layers of those before them. -/
def levelsFrom (done : Array Nat) : List (List Nat) → List Nat
  | [] => []
  | predecessors :: rest =>
    let level := (predecessors.map fun p => done.getD p 0 + 1).foldl max 0
    level :: levelsFrom (done.push level) rest

end Schedule

namespace Circuit

/-- For each command the commands that it directly depends on, in ascending order. -/
def allPredecessors (c : Circuit) : List (List Nat) :=
  Schedule.predecessorsFrom 0 [] (c.commands.map Command.wires)

/-- The commands that command `i` directly depends on; none if there is no such
command. Commands are numbered by 32 bits, so only the lowest 32 of `i` count. -/
def predecessors (c : Circuit) (i : Nat) : List Nat := c.allPredecessors.getD (i % UInt32.size) []

/-- The layer of each command. -/
def levels (c : Circuit) : List Nat := Schedule.levelsFrom #[] c.allPredecessors

/-- The number of layers. -/
def depth (c : Circuit) : Nat := (c.levels.map (· + 1)).foldl max 0

/-- The commands of each layer, in ascending order. -/
def layers (c : Circuit) : List (List Nat) :=
  let numbered := c.levels.zipIdx
  (List.range c.depth).map fun l => (numbered.filter fun (level, _) => level == l).map Prod.snd

end Circuit

end QuantumCircuit
