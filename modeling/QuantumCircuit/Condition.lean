import QuantumCircuit.Error

/-! Conditions guard commands: a list of bits, read as a number with the first bit
least significant, is compared with a value. A condition reads one to 64 bits, and
its value fits in them. -/

namespace QuantumCircuit

structure Condition where
  bits : List Bit
  value : UInt64
  bits_ne_nil : bits ≠ []
  length_le : bits.length ≤ 64
  value_lt : value.toNat < 1 <<< bits.length
deriving DecidableEq

namespace Condition

def width (c : Condition) : Nat := c.bits.length

/-- The condition that `bits` spell `value`. -/
def make (bits : List Bit) (value : UInt64) : Except Error Condition :=
  if nonempty : bits = [] then .error (.invalidCondition .noBits)
  else if narrow : bits.length ≤ 64 then
    if fits : value.toNat < 1 <<< bits.length then .ok ⟨bits, value, nonempty, narrow, fits⟩
    else .error (.invalidCondition (.doesNotFit value bits.length))
  else .error (.invalidCondition (.tooWide bits.length))

/-- The condition that `b` is set. -/
def ifBit (b : Bit) : Condition := ⟨[b], 1, by simp, by simp, by simp⟩

/-- The condition that `b` is not set. -/
def ifNotBit (b : Bit) : Condition := ⟨[b], 0, by simp, by simp, by simp⟩

/-- The condition that a whole register spells `value`. -/
def ofRegister (r : Register) (value : UInt64) : Except Error Condition := make r.bits value

/-- The condition as it is shown: `[c[0], c[1]] == 2`. -/
def label (c : Condition) : String :=
  "[" ++ ", ".intercalate (c.bits.map Bit.label) ++ "] == " ++ c.value.toNat.repr

/-- The same condition on other bits. -/
def withBits (c : Condition) (bits : List Bit) (h : bits.length = c.bits.length) : Condition :=
  ⟨bits, c.value, fun e => c.bits_ne_nil (List.eq_nil_of_length_eq_zero (by simp [← h, e])),
    h ▸ c.length_le, h ▸ c.value_lt⟩

end Condition

/-- Renames a list from left to right, up to the first failure. -/
def renameAll {α ε : Type} (rename : α → Except ε α) :
    (as : List α) → Except ε { bs : List α // bs.length = as.length }
  | [] => .ok ⟨[], rfl⟩
  | a :: as =>
    match rename a with
    | .error e => .error e
    | .ok b =>
      match renameAll rename as with
      | .error e => .error e
      | .ok ⟨bs, h⟩ => .ok ⟨b :: bs, by simp [h]⟩

/-- The condition with every bit renamed. -/
def Condition.mapBits {ε : Type} (rename : Bit → Except ε Bit) (c : Condition) :
    Except ε Condition :=
  match renameAll rename c.bits with
  | .error e => .error e
  | .ok ⟨bits, h⟩ => .ok (c.withBits bits h)

end QuantumCircuit
