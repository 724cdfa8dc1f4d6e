import Std.Data.ExtTreeSet

/-! Units name the wires of a circuit: a register name and an index vector. A qubit
and a bit may carry the same unit and are still different wires, so each kind has
its own type. A register is the run of bits `name[0]`, …, `name[size - 1]`; whether
its bits are declared anywhere is the circuit's business. -/

namespace QuantumCircuit

/-- A register name together with an index vector of any length. -/
structure UnitId where
  register : String
  index : List UInt32
deriving DecidableEq, Inhabited

namespace UnitId

/-- Decimal text of an index. -/
def indexText (i : UInt32) : String := i.toNat.repr

/-- The unit as it is shown: `g[1, 2]`. -/
def label (u : UnitId) : String :=
  u.register ++ "[" ++ ", ".intercalate (u.index.map indexText) ++ "]"

/-- The index of a unit that has exactly one. -/
def single? (u : UnitId) : Option UInt32 :=
  match u.index with
  | [i] => some i
  | _ => none

/-- Registers compare character by character, then index vectors from the left; the
shorter of two that agree comes first. -/
instance : Ord UnitId := ⟨compareLex (compareOn register) (compareOn index)⟩

instance : Std.TransOrd UnitId :=
  inferInstanceAs (Std.TransCmp (compareLex (compareOn register) (compareOn index)))

instance : Std.LawfulEqOrd UnitId where
  eq_of_compare {u v} h := by
    obtain ⟨register_eq, index_eq⟩ := Ordering.then_eq_eq.1 h
    cases u; cases v
    cases Std.LawfulEqOrd.eq_of_compare register_eq
    cases Std.LawfulEqOrd.eq_of_compare index_eq
    rfl

end UnitId

/-- A quantum wire. -/
structure Qubit where
  id : UnitId
deriving DecidableEq, Inhabited

namespace Qubit

def inRegister (register : String) (i : UInt32) : Qubit := ⟨⟨register, [i]⟩⟩

/-- Qubit `q[i]` of the default register. -/
def ofIndex (i : UInt32) : Qubit := inRegister "q" i

def label (q : Qubit) : String := q.id.label

instance : Ord Qubit := ⟨compareOn id⟩

instance : Std.TransOrd Qubit := inferInstanceAs (Std.TransCmp (compareOn id))

instance : Std.LawfulEqOrd Qubit where
  eq_of_compare {q r} h := by
    cases q; cases r
    exact congrArg mk (Std.LawfulEqOrd.eq_of_compare (α := UnitId) h)

/-- Qubits in ascending order of their units. -/
def sort (qs : List Qubit) : List Qubit := qs.mergeSort fun a b => (compare a b).isLE

end Qubit

/-- A classical wire. -/
structure Bit where
  id : UnitId
deriving DecidableEq, Inhabited

namespace Bit

def inRegister (register : String) (i : UInt32) : Bit := ⟨⟨register, [i]⟩⟩

/-- Bit `c[i]` of the default register. -/
def ofIndex (i : UInt32) : Bit := inRegister "c" i

def label (b : Bit) : String := b.id.label

instance : Ord Bit := ⟨compareOn id⟩

instance : Std.TransOrd Bit := inferInstanceAs (Std.TransCmp (compareOn id))

instance : Std.LawfulEqOrd Bit where
  eq_of_compare {b c} h := by
    cases b; cases c
    exact congrArg mk (Std.LawfulEqOrd.eq_of_compare (α := UnitId) h)

end Bit

/-- The indices below `n`, in order. -/
def indicesBelow (n : UInt32) : List UInt32 := (List.range n.toNat).map UInt32.ofNat

/-- A register by its name and its number of units. -/
structure Register where
  name : String
  size : UInt32
deriving DecidableEq, Inhabited

namespace Register

/-- Bit `name[i]`; `i` may lie outside the register. -/
def bit (r : Register) (i : UInt32) : Bit := Bit.inRegister r.name i

/-- The bits of the register in index order. -/
def bits (r : Register) : List Bit := (indicesBelow r.size).map r.bit

end Register

end QuantumCircuit
