/-! The types of operation a circuit document can name. Twelve are unitary gates;
measurement, reset, boxes and guarded operations are not. -/

namespace QuantumCircuit

inductive OpType where
  | x | y | z | h | s | sdg | t | tdg
  | cx | cy | cz | swap
  | measure | reset | circBox | conditional
deriving DecidableEq, Inhabited

namespace OpType

def all : List OpType :=
  [x, y, z, h, s, sdg, t, tdg, cx, cy, cz, swap, measure, reset, circBox, conditional]

def name : OpType → String
  | x => "X" | y => "Y" | z => "Z" | h => "H"
  | s => "S" | sdg => "Sdg" | t => "T" | tdg => "Tdg"
  | cx => "CX" | cy => "CY" | cz => "CZ" | swap => "SWAP"
  | measure => "Measure" | reset => "Reset"
  | circBox => "CircBox" | conditional => "Conditional"

/-- The type of that name; names are case-sensitive. -/
def ofName? (name : String) : Option OpType := all.find? fun type => type.name == name

/-- How many qubits the operation takes, where the type alone decides it. -/
def qubitArity : OpType → Option Nat
  | x | y | z | h | s | sdg | t | tdg | measure | reset => some 1
  | cx | cy | cz | swap => some 2
  | circBox | conditional => none

/-- How many bits the operation writes, where the type alone decides it. -/
def bitArity : OpType → Option Nat
  | measure => some 1
  | circBox | conditional => none
  | _ => some 0

/-- The unitary gates. -/
def isGate : OpType → Bool
  | measure | reset | circBox | conditional => false
  | _ => true

theorem mem_all (type : OpType) : type ∈ all := by
  cases type <;> decide

theorem ofName?_name (type : OpType) : ofName? type.name = some type := by
  cases type <;> decide

end OpType

end QuantumCircuit
