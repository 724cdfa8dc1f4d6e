import QuantumCircuit.Document.Basic
import QuantumCircuit.Json.Layout

/-! Documents as JSON values. A unit is a pair of its register and its indices, and
every part of a document is an object whose fields come in ascending order. A missing
name, label or payload is left out. -/

namespace QuantumCircuit

namespace UnitId

def json (u : UnitId) : Json :=
  .array [.string u.register, .array (u.index.map fun i => Json.natural i.toNat)]

end UnitId

/-- A field that is left out when it has no value. -/
def Json.optional (key : String) : Option Json → List (String × Json)
  | some v => [(key, v)]
  | none => []

def OpType.json (type : OpType) : Json := .string type.name

mutual

def Document.json : Document → Json
  | ⟨bits, commands, permutation, name, phase, qubits⟩ =>
    .object ([("bits", .array (bits.map UnitId.json)),
      ("commands", .array (Document.commandsJson commands)),
      ("implicit_permutation", .array (permutation.map fun (u, v) => .array [u.json, v.json]))]
      ++ Json.optional "name" (name.map .string)
      ++ [("phase", .string phase), ("qubits", .array (qubits.map UnitId.json))])

def Document.commandsJson : List Document.Command → List Json
  | [] => []
  | c :: cs => c.json :: Document.commandsJson cs

def Document.Command.json : Document.Command → Json
  | ⟨args, op, opgroup⟩ =>
    .object ([("args", .array (args.map UnitId.json)), ("op", op.json)]
      ++ Json.optional "opgroup" (opgroup.map .string))

def Document.Op.json : Document.Op → Json
  | ⟨box, conditional, type⟩ =>
    .object ((match box with
        | some box => [("box", box.json)]
        | none => [])
      ++ (match conditional with
        | some conditional => [("conditional", conditional.json)]
        | none => [])
      ++ [("type", type.json)])

def Document.Box.json : Document.Box → Json
  | ⟨circuit, id, type⟩ =>
    .object [("circuit", circuit.json), ("id", .string id.text), ("type", type.json)]

def Document.Conditional.json : Document.Conditional → Json
  | ⟨op, value, width⟩ =>
    .object [("op", op.json), ("value", .natural value.toNat), ("width", .natural width.toNat)]

end

end QuantumCircuit
