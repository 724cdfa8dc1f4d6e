import QuantumCircuit.Document.Basic
import QuantumCircuit.Json.Value

/-! Reading documents from a text or from a JSON value.

A text is read in one pass: every reader walks the tree of the text in its order and
reports the first fault it meets. An unknown key is skimmed, except in an operation,
where it is refused where it stands, as is a repeated one; a missing field is noticed
at the end of its object. Instead of an object there may be an array of the fields in
ascending order of their keys. `room` is the number of containers that may still be
opened.

A value is read like a text that spells it, with as much room as it needs; whatever is
wrong with it is then a matter of its shape. -/

namespace QuantumCircuit

namespace Json

abbrev Reading (α : Type) := Except Failure α

/-! ### Scalars -/

def Tree.text : Tree → Reading String
  | .string s => s.strict
  | t => .error t.misfit

/-- A plain natural number below `bound`. -/
def Tree.natural (bound : Nat) : Tree → Reading Nat
  | .number n => do
    match (← n.strict).toNat? with
    | some k => if k < bound then return k else .error .misshapen
    | none => .error .misshapen
  | t => .error t.misfit

/-- Either `null` or what `read` reads. -/
def Tree.nullable {α : Type} (read : Tree → Reading α) : Tree → Reading (Option α)
  | .null => .ok none
  | t => some <$> read t

/-! ### Arrays -/

/-- All items of an array. -/
def Items.each {α : Type} (read : Tree → Reading α) : Items → Reading (List α)
  | .done e => match e.failure? with
    | none => .ok []
    | some f => .error f
  | .item value rest => do
    let a ← read value
    let as ← rest.each read
    return a :: as

/-- The next item, if the array has not ended, and those after it. -/
def Items.next? {α : Type} (read : Tree → Reading α) : Items → Reading (Option α × Items)
  | .done e => match e.failure? with
    | none => .ok (none, .done e)
    | some f => .error f
  | .item value rest => do return (some (← read value), rest)

/-- The next item, which must be there. -/
def Items.next {α : Type} (read : Tree → Reading α) (items : Items) : Reading (α × Items) := do
  match ← items.next? read with
  | (some a, rest) => return (a, rest)
  | (none, _) => .error .misshapen

/-- After the last item that is wanted the container must be closed; a comma is a fault
of the text, whatever follows it. -/
def Ending.close : Ending → Reading Unit
  | .closed => .ok ()
  | .fails f afterComma => .error (if afterComma then .malformed else f)

def Items.close : Items → Reading Unit
  | .done e => e.close
  | .item _ _ => .error .malformed

def Members.close : Members → Reading Unit
  | .done e => e.close
  | .member _ _ _ => .error .malformed

/-- An array of any length. -/
def Tree.list {α : Type} (read : Nat → Tree → Reading α) : Nat → Tree → Reading (List α)
  | 0, .array _ => .error .malformed
  | room + 1, .array items => items.each (read room)
  | _, t => .error t.misfit

/-- An array of two items. -/
def Tree.pair {α β : Type} (first : Nat → Tree → Reading α) (second : Nat → Tree → Reading β) :
    Nat → Tree → Reading (α × β)
  | 0, .array _ => .error .malformed
  | room + 1, .array items => do
    let (a, items) ← items.next (first room)
    let (b, items) ← items.next (second room)
    items.close
    return (a, b)
  | _, t => .error t.misfit

/-! ### Objects -/

/-- All members of an object, one after the other; each changes what is known so far. -/
def Members.fold {σ : Type} (step : σ → String → Tree → Reading σ) (s : σ) : Members → Reading σ
  | .done e => match e.failure? with
    | none => .ok s
    | some f => .error f
  | .member key value rest => do
    let k ← key.strict
    let s ← step s k value
    rest.fold step s

/-- The value of a field that must not be known yet. -/
def once {α : Type} (known : Option α) (read : Reading α) : Reading (Option α) :=
  if known.isSome then .error .misshapen else some <$> read

/-- A field that must be there. -/
def required {α : Type} : Option α → Reading α
  | some a => .ok a
  | none => .error .misshapen

end Json

open Json

/-! ### Units, types and identifiers -/

/-- A unit is a pair of its register and its indices. -/
def UnitId.read (room : Nat) (t : Tree) : Reading UnitId := do
  let index (_ : Nat) (t : Tree) : Reading UInt32 := UInt32.ofNat <$> t.natural UInt32.size
  let (register, index) ← t.pair (fun _ => Tree.text) (Tree.list index) room
  return ⟨register, index⟩

def UnitId.readPair : Nat → Tree → Reading (UnitId × UnitId) := Tree.pair UnitId.read UnitId.read

def OpType.ofText (name : String) : Reading OpType :=
  match OpType.ofName? name with
  | some type => .ok type
  | none => .error .misshapen

/-- A type is its name, or an object with the name as only key and `null` as value.
Anything else is refused at its first character, and so is a key that is no string. -/
def OpType.read : Nat → Tree → Reading OpType
  | _, .string name => do OpType.ofText (← name.strict)
  | 0, .object _ => .error .malformed
  | _ + 1, .object (.member key value rest) => do
    let type ← OpType.ofText (← key.strict)
    match value with
    | .null => pure ()
    | other => throw other.misfit
    rest.close
    return type
  | _ + 1, .object (.done e) => .error (e.failure?.getD .malformed)
  | _, .absent f => .error f
  | _, _ => .error .malformed

def Uuid.read (t : Tree) : Reading Uuid := do
  match Uuid.ofText? (← t.text) with
  | some id => return id
  | none => .error .misshapen

namespace Document

/-! ### Fields known so far -/

structure Draft where
  bits : Option (List UnitId) := none
  commands : Option (List Command) := none
  permutation : Option (List (UnitId × UnitId)) := none
  name : Option (Option String) := none
  phase : Option String := none
  qubits : Option (List UnitId) := none

def Draft.finish (d : Draft) : Reading Document := do
  return ⟨← required d.bits, ← required d.commands, d.permutation.getD [], d.name.getD none,
    ← required d.phase, ← required d.qubits⟩

structure Command.Draft where
  args : Option (List UnitId) := none
  op : Option Op := none
  opgroup : Option (Option String) := none

def Command.Draft.finish (d : Command.Draft) : Reading Command := do
  return ⟨← required d.args, ← required d.op, d.opgroup.getD none⟩

structure Op.Draft where
  box : Option (Option Box) := none
  conditional : Option (Option Conditional) := none
  type : Option OpType := none

def Op.Draft.finish (d : Op.Draft) : Reading Op := do
  return ⟨d.box.getD none, d.conditional.getD none, ← required d.type⟩

structure Box.Draft where
  circuit : Option Document := none
  id : Option Uuid := none
  type : Option OpType := none

def Box.Draft.finish (d : Box.Draft) : Reading Box := do
  return ⟨← required d.circuit, ← required d.id, ← required d.type⟩

structure Conditional.Draft where
  op : Option Op := none
  value : Option UInt64 := none
  width : Option UInt32 := none

def Conditional.Draft.finish (d : Conditional.Draft) : Reading Conditional := do
  return ⟨← required d.op, ← required d.value, ← required d.width⟩

/-! ### The parts of a document -/

def readUnits : Nat → Tree → Reading (List UnitId) := Tree.list UnitId.read

def readPairs : Nat → Tree → Reading (List (UnitId × UnitId)) := Tree.list UnitId.readPair

def readValue (t : Tree) : Reading UInt64 := UInt64.ofNat <$> t.natural UInt64.size

def readWidth (t : Tree) : Reading UInt32 := UInt32.ofNat <$> t.natural UInt32.size

mutual

def read : Nat → Tree → Reading Document
  | 0, .object _ => .error .malformed
  | 0, .array _ => .error .malformed
  | room + 1, .object members => do
    let draft ← members.fold (fun (d : Draft) key value => do
      match key with
      | "bits" => return { d with bits := ← once d.bits (readUnits room value) }
      | "commands" => return { d with commands := ← once d.commands (readCommands room value) }
      | "implicit_permutation" =>
        return { d with permutation := ← once d.permutation (readPairs room value) }
      | "name" => return { d with name := ← once d.name (value.nullable Tree.text) }
      | "phase" => return { d with phase := ← once d.phase value.text }
      | "qubits" => return { d with qubits := ← once d.qubits (readUnits room value) }
      | _ => do value.skim; return d) {}
    draft.finish
  | room + 1, .array items => do
    let (bits, items) ← items.next (readUnits room)
    let (commands, items) ← items.next (readCommands room)
    let (permutation, items) ← items.next? (readPairs room)
    let (name, items) ← items.next? (Tree.nullable Tree.text)
    let (phase, items) ← items.next Tree.text
    let (qubits, items) ← items.next (readUnits room)
    items.close
    return ⟨bits, commands, permutation.getD [], name.getD none, phase, qubits⟩
  | _, t => .error t.misfit

def readCommands : Nat → Tree → Reading (List Command)
  | 0, .array _ => .error .malformed
  | room + 1, .array items => items.each fun t => Command.read room t
  | _, t => .error t.misfit

def Command.read : Nat → Tree → Reading Command
  | 0, .object _ => .error .malformed
  | 0, .array _ => .error .malformed
  | room + 1, .object members => do
    let draft ← members.fold (fun (d : Command.Draft) key value => do
      match key with
      | "args" => return { d with args := ← once d.args (readUnits room value) }
      | "op" => return { d with op := ← once d.op (Op.read room value) }
      | "opgroup" => return { d with opgroup := ← once d.opgroup (value.nullable Tree.text) }
      | _ => do value.skim; return d) {}
    draft.finish
  | room + 1, .array items => do
    let (args, items) ← items.next (readUnits room)
    let (op, items) ← items.next fun t => Op.read room t
    let (opgroup, items) ← items.next? (Tree.nullable Tree.text)
    items.close
    return ⟨args, op, opgroup.getD none⟩
  | _, t => .error t.misfit

def Op.read : Nat → Tree → Reading Op
  | 0, .object _ => .error .malformed
  | 0, .array _ => .error .malformed
  | room + 1, .object members => do
    let draft ← members.fold (fun (d : Op.Draft) key value => do
      match key with
      | "box" =>
        return { d with box := ← once d.box (value.nullable fun t => Box.read room t) }
      | "conditional" =>
        return { d with
          conditional := ← once d.conditional (value.nullable fun t => Conditional.read room t) }
      | "type" => return { d with type := ← once d.type (OpType.read room value) }
      | _ => throw .misshapen) {}
    draft.finish
  | room + 1, .array items => do
    let (box, items) ← items.next? (Tree.nullable fun t => Box.read room t)
    let (conditional, items) ← items.next? (Tree.nullable fun t => Conditional.read room t)
    let (type, items) ← items.next (OpType.read room)
    items.close
    return ⟨box.getD none, conditional.getD none, type⟩
  | _, t => .error t.misfit

def Box.read : Nat → Tree → Reading Box
  | 0, .object _ => .error .malformed
  | 0, .array _ => .error .malformed
  | room + 1, .object members => do
    let draft ← members.fold (fun (d : Box.Draft) key value => do
      match key with
      | "circuit" => return { d with circuit := ← once d.circuit (Document.read room value) }
      | "id" => return { d with id := ← once d.id (Uuid.read value) }
      | "type" => return { d with type := ← once d.type (OpType.read room value) }
      | _ => do value.skim; return d) {}
    draft.finish
  | room + 1, .array items => do
    let (circuit, items) ← items.next fun t => Document.read room t
    let (id, items) ← items.next Uuid.read
    let (type, items) ← items.next (OpType.read room)
    items.close
    return ⟨circuit, id, type⟩
  | _, t => .error t.misfit

def Conditional.read : Nat → Tree → Reading Conditional
  | 0, .object _ => .error .malformed
  | 0, .array _ => .error .malformed
  | room + 1, .object members => do
    let draft ← members.fold (fun (d : Conditional.Draft) key value => do
      match key with
      | "op" => return { d with op := ← once d.op (Op.read room value) }
      | "value" => return { d with value := ← once d.value (readValue value) }
      | "width" => return { d with width := ← once d.width (readWidth value) }
      | _ => do value.skim; return d) {}
    draft.finish
  | room + 1, .array items => do
    let (op, items) ← items.next fun t => Op.read room t
    let (value, items) ← items.next readValue
    let (width, items) ← items.next readWidth
    items.close
    return ⟨op, value, width⟩
  | _, t => .error t.misfit

end

end Document

/-! ### Texts and values -/

/-- Reads a whole text with a reader of trees. -/
def Json.fromText {α : Type} (read : Nat → Tree → Reading α) (text : String) : Reading α :=
  Json.readText (read Json.depthLimit) text

/-- Reads a value with a reader of trees. -/
def Json.fromValue {α : Type} (read : Nat → Tree → Reading α) (v : Json) : Reading α :=
  (read v.depth v.tree).mapError fun _ => .misshapen

def Document.ofText (text : String) : Reading Document := Json.fromText Document.read text

def Document.ofValue (v : Json) : Reading Document := Json.fromValue Document.read v

end QuantumCircuit
