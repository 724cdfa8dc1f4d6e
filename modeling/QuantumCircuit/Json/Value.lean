import QuantumCircuit.Json.Tree

/-! JSON values. A value is read from a text strictly: nesting is limited, numerals
must be in range and literals must be paired up. Its objects have their keys in
ascending order, and of a repeated key the last member counts. -/

namespace QuantumCircuit

inductive Json where
  | null
  | bool (b : Bool)
  | number (n : Json.Numeral)
  | string (s : String)
  | array (items : List Json)
  | object (members : List (String × Json))

namespace Json

def natural (n : Nat) : Json := .number (.ofNat n)

/-! ### Objects -/

/-- Sets `key` among members in ascending order of their keys. -/
def insertMember (key : String) (value : Json) : List (String × Json) → List (String × Json)
  | [] => [(key, value)]
  | (k, v) :: rest =>
    if key < k then (key, value) :: (k, v) :: rest
    else if key = k then (key, value) :: rest
    else (k, v) :: insertMember key value rest

/-- The members in ascending order of their keys, the last one for each key. -/
def arrange (members : List (String × Json)) : List (String × Json) :=
  members.foldl (fun ms (k, v) => insertMember k v ms) []

mutual

/-- The value with every object's keys in ascending order. -/
def sorted : Json → Json
  | .array items => .array (sortedItems items)
  | .object members => .object (arrange (sortedMembers members))
  | v => v

def sortedItems : List Json → List Json
  | [] => []
  | v :: vs => v.sorted :: sortedItems vs

def sortedMembers : List (String × Json) → List (String × Json)
  | [] => []
  | (k, v) :: ms => (k, v.sorted) :: sortedMembers ms

end

/-! ### Nesting -/

mutual

/-- How many arrays and objects are open at once, at most. -/
def depth : Json → Nat
  | .array items => depthItems items + 1
  | .object members => depthMembers members + 1
  | _ => 0

def depthItems : List Json → Nat
  | [] => 0
  | v :: vs => max v.depth (depthItems vs)

def depthMembers : List (String × Json) → Nat
  | [] => 0
  | (_, v) :: ms => max v.depth (depthMembers ms)

end

/-- Texts nest no deeper than this. -/
def depthLimit : Nat := 127

/-! ### Values and trees -/

mutual

/-- The tree of a text that spells the value. -/
def tree : Json → Tree
  | .null => .null
  | .bool b => .bool b
  | .number n => .number (.whole n)
  | .string s => .string (.whole s)
  | .array items => .array (treeItems items)
  | .object members => .object (treeMembers members)

def treeItems : List Json → Items
  | [] => .done .closed
  | v :: vs => .item v.tree (treeItems vs)

def treeMembers : List (String × Json) → Members
  | [] => .done .closed
  | (k, v) :: ms => .member (.whole k) v.tree (treeMembers ms)

end

mutual

/-- The value that a tree spells, with at most `room` containers inside each other. -/
def Tree.value : Nat → Tree → Except Failure Json
  | _, .absent f => .error f
  | _, .misspelt f => .error f
  | _, .null => .ok .null
  | _, .bool b => .ok (.bool b)
  | _, .number n => n.strict.map .number
  | _, .string s => s.strict.map .string
  | 0, .array _ => .error .malformed
  | 0, .object _ => .error .malformed
  | room + 1, .array items => (items.values room).map .array
  | room + 1, .object members => (members.values room).map fun ms => .object (arrange ms)

def Items.values : Nat → Items → Except Failure (List Json)
  | _, .done e => match e.failure? with
    | none => .ok []
    | some f => .error f
  | room, .item value rest => do
    let v ← value.value room
    let vs ← rest.values room
    return v :: vs

def Members.values : Nat → Members → Except Failure (List (String × Json))
  | _, .done e => match e.failure? with
    | none => .ok []
    | some f => .error f
  | room, .member key value rest => do
    let k ← key.strict
    let v ← value.value room
    let ms ← rest.values room
    return (k, v) :: ms

end

/-- Reads a whole text by `read`; nothing but blanks may follow the value. -/
def readText {α : Type} (read : Tree → Except Failure α) (text : String) : Except Failure α := do
  let (tree, ended) := Tree.ofText text
  let a ← read tree
  if ended then return a else .error .malformed

/-- The value of a text. -/
def parse (text : String) : Except Failure Json := readText (Tree.value depthLimit) text

end Json

end QuantumCircuit
