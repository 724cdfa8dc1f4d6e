import QuantumCircuit.OpType
import QuantumCircuit.Unit

/-! OpenQASM 3 programs of the kind that circuits are written as: registers, then one
statement per command, some of them under a guard. A guard compares one bit, or all
bits of a register, with a number. -/

namespace QuantumCircuit.Qasm

/-- What a statement does. -/
inductive Action where
  | gate (name : String) (qubits : List Qubit)
  | measure (qubits : List Qubit) (target : Bit)
  | reset (qubits : List Qubit)

inductive Guard where
  | bit (b : Bit) (value : UInt64)
  | register (name : String) (value : UInt64)

structure Statement where
  guard : Option Guard
  action : Action

structure Program where
  qubits : List Register
  bits : List Register
  statements : List Statement

/-- The name of a unitary gate. -/
def gateName? : OpType → Option String
  | .x => some "x" | .y => some "y" | .z => some "z" | .h => some "h"
  | .s => some "s" | .sdg => some "sdg" | .t => some "t" | .tdg => some "tdg"
  | .cx => some "cx" | .cy => some "cy" | .cz => some "cz" | .swap => some "swap"
  | .measure | .reset | .circBox | .conditional => none

/-! ### Text -/

def operands (qubits : List Qubit) : String := ", ".intercalate (qubits.map Qubit.label)

def Action.text : Action → String
  | .gate name qubits => name ++ " " ++ operands qubits ++ ";"
  | .measure qubits target => target.label ++ " = measure " ++ operands qubits ++ ";"
  | .reset qubits => "reset " ++ operands qubits ++ ";"

def Guard.text : Guard → String
  | .bit b value => b.label ++ " == " ++ value.toNat.repr
  | .register name value => name ++ " == " ++ value.toNat.repr

def Statement.lines (s : Statement) : List String :=
  match s.guard with
  | none => [s.action.text]
  | some guard => ["if (" ++ guard.text ++ ") \x7b", "    " ++ s.action.text, "\x7d"]

/-- The declaration of a register of qubits or of bits. -/
def declaration (kind : String) (r : Register) : String :=
  kind ++ "[" ++ r.size.toNat.repr ++ "] " ++ r.name ++ ";"

def Program.declarations (p : Program) : List String :=
  p.qubits.map (declaration "qubit") ++ p.bits.map (declaration "bit")

/-- A blank line closes the head, and another one the declarations if there are any. -/
def Program.lines (p : Program) : List String :=
  ["OPENQASM 3.0;", "include \"stdgates.inc\";", ""]
    ++ (if p.declarations.isEmpty then [] else p.declarations ++ [""])
    ++ p.statements.flatMap Statement.lines

def Program.text (p : Program) : String := String.join (p.lines.map (· ++ "\n"))

end QuantumCircuit.Qasm
