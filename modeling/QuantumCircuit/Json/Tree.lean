import QuantumCircuit.Json.Literal
import QuantumCircuit.Json.Numeral

/-! What a text spells, as far as it is well-formed. A `Tree` follows the text up to
the first place where even a skimming reading cannot go on, and says there what is
wrong. So a reader that wants a particular shape can walk the tree in the order of
the text and meet the first failure that concerns it: a fault of the text or a value
of the wrong shape, whichever comes first. Nothing is said here about shapes, and
nesting is not limited. -/

namespace QuantumCircuit.Json

/-- How the members of an array or object come to an end. -/
inductive Ending where
  | closed
  /-- Neither the end nor a next member; `afterComma` when a comma stands before it. -/
  | fails (failure : Failure) (afterComma : Bool)

/-- The failure of a reader that wants the end or a next member. -/
def Ending.failure? : Ending → Option Failure
  | .closed => none
  | .fails f _ => some f

mutual

inductive Tree where
  /-- No value starts here. -/
  | absent (failure : Failure)
  /-- Starts like `null`, `true` or `false` and goes on differently. -/
  | misspelt (failure : Failure)
  | null
  | bool (b : Bool)
  | number (n : Lexeme Numeral)
  | string (s : Lexeme String)
  | array (items : Items)
  | object (members : Members)

inductive Items where
  | done (ending : Ending)
  | item (value : Tree) (rest : Items)

/-- Members in the order of the text. After a key that cannot be passed over, or one
without a colon, stands an absent value. -/
inductive Members where
  | done (ending : Ending)
  | member (key : Lexeme String) (value : Tree) (rest : Members)

end

/-- The failure of a reader that does not want what stands here. A scalar is read to
its end first, so its own fault comes before that of its shape. -/
def Tree.misfit : Tree → Failure
  | .absent f => f
  | .misspelt f => f
  | .number ⟨.error f, _⟩ => f
  | .string ⟨.error f, _⟩ => f
  | _ => .misshapen

/-! ### Skimming -/

mutual

/-- Passes over a value of any shape. -/
def Tree.skim : Tree → Except Failure Unit
  | .absent f => .error f
  | .misspelt f => .error f
  | .null => .ok ()
  | .bool _ => .ok ()
  | .number n => n.skim
  | .string s => s.skim
  | .array items => items.skim
  | .object members => members.skim

def Items.skim : Items → Except Failure Unit
  | .done e => match e.failure? with
    | none => .ok ()
    | some f => .error f
  | .item value rest => do value.skim; rest.skim

def Members.skim : Members → Except Failure Unit
  | .done e => match e.failure? with
    | none => .ok ()
    | some f => .error f
  | .member key value rest => do key.skim; value.skim; rest.skim

end

/-! ### Reading a text

Each function returns the tree at the front of the text and, if the text can be read
on, what follows it. The first argument bounds the recursion; `Tree.ofChars` gives
enough of it for the whole text. -/

def isBlank (c : Char) : Bool := c == ' ' || c == '\n' || c == '\t' || c == '\r'

def skipBlanks (cs : List Char) : List Char := cs.dropWhile isBlank

/-- The value `whole`, of whose spelling `letters` are still to come. -/
def scanWord (whole : Tree) : List Char → List Char → Tree × Option (List Char)
  | [], cs => (whole, some cs)
  | _ :: _, [] => (.misspelt .truncated, none)
  | l :: ls, c :: cs => if c == l then scanWord whole ls cs else (.misspelt .malformed, none)

mutual

def scanValue : Nat → List Char → Tree × Option (List Char)
  | 0, _ => (.absent .truncated, none)
  | fuel + 1, cs =>
    match skipBlanks cs with
    | [] => (.absent .truncated, none)
    | c :: rest =>
      if c = '"' then
        let (s, rest) := Literal.scan rest
        (.string s, s.skim.toOption.map fun _ => rest)
      else if c = '[' then
        let (items, rest) := scanItems fuel rest
        (.array items, rest)
      else if c = '\x7b' then
        let (members, rest) := scanMembers fuel rest
        (.object members, rest)
      else if c = 'n' then scanWord .null ['u', 'l', 'l'] rest
      else if c = 't' then scanWord (.bool true) ['r', 'u', 'e'] rest
      else if c = 'f' then scanWord (.bool false) ['a', 'l', 's', 'e'] rest
      else if c = '-' || c.isDigit then
        let (n, rest) := Numeral.scan (c :: rest)
        (.number n, n.skim.toOption.map fun _ => rest)
      else (.absent .malformed, none)

/-- Items after the opening bracket. -/
def scanItems : Nat → List Char → Items × Option (List Char)
  | 0, _ => (.done (.fails .truncated false), none)
  | fuel + 1, cs =>
    match skipBlanks cs with
    | [] => (.done (.fails .truncated false), none)
    | c :: rest =>
      if c = ']' then (.done .closed, some rest)
      else scanItem fuel (c :: rest)

/-- One item and those after it. -/
def scanItem : Nat → List Char → Items × Option (List Char)
  | 0, _ => (.done (.fails .truncated false), none)
  | fuel + 1, cs =>
    match scanValue fuel cs with
    | (value, none) => (.item value (.done (.fails .truncated false)), none)
    | (value, some rest) =>
      let (items, rest) := scanMoreItems fuel rest
      (.item value items, rest)

/-- Items after an item. -/
def scanMoreItems : Nat → List Char → Items × Option (List Char)
  | 0, _ => (.done (.fails .truncated false), none)
  | fuel + 1, cs =>
    match skipBlanks cs with
    | [] => (.done (.fails .truncated false), none)
    | c :: rest =>
      if c = ']' then (.done .closed, some rest)
      else if c = ',' then
        match skipBlanks rest with
        | [] => (.done (.fails .truncated true), none)
        | c :: rest =>
          if c = ']' then (.done (.fails .malformed true), none)
          else scanItem fuel (c :: rest)
      else (.done (.fails .malformed false), none)

/-- Members after the opening brace. -/
def scanMembers : Nat → List Char → Members × Option (List Char)
  | 0, _ => (.done (.fails .truncated false), none)
  | fuel + 1, cs =>
    match skipBlanks cs with
    | [] => (.done (.fails .truncated false), none)
    | c :: rest =>
      if c = '\x7d' then (.done .closed, some rest)
      else if c = '"' then scanMember fuel rest
      else (.done (.fails .malformed false), none)

/-- One member, after the opening quote of its key, and those after it. -/
def scanMember : Nat → List Char → Members × Option (List Char)
  | 0, _ => (.done (.fails .truncated false), none)
  | fuel + 1, cs =>
    let (key, rest) := Literal.scan cs
    match key.skim with
    | .error f => (.member key (.absent f) (.done (.fails f false)), none)
    | .ok _ =>
      match skipBlanks rest with
      | [] => (.member key (.absent .truncated) (.done (.fails .truncated false)), none)
      | c :: rest =>
        if c = ':' then
          match scanValue fuel rest with
          | (value, none) => (.member key value (.done (.fails .truncated false)), none)
          | (value, some rest) =>
            let (members, rest) := scanMoreMembers fuel rest
            (.member key value members, rest)
        else (.member key (.absent .malformed) (.done (.fails .malformed false)), none)

/-- Members after a member. -/
def scanMoreMembers : Nat → List Char → Members × Option (List Char)
  | 0, _ => (.done (.fails .truncated false), none)
  | fuel + 1, cs =>
    match skipBlanks cs with
    | [] => (.done (.fails .truncated false), none)
    | c :: rest =>
      if c = '\x7d' then (.done .closed, some rest)
      else if c = ',' then
        match skipBlanks rest with
        | [] => (.done (.fails .truncated true), none)
        | c :: rest =>
          if c = '"' then scanMember fuel rest
          else (.done (.fails .malformed true), none)
      else (.done (.fails .malformed false), none)

end

/-- The tree of a whole text, and whether only blanks follow it. -/
def Tree.ofChars (cs : List Char) : Tree × Bool :=
  let (tree, rest) := scanValue (3 * cs.length + 1) cs
  (tree, (skipBlanks (rest.getD [])).isEmpty)

def Tree.ofText (text : String) : Tree × Bool := ofChars text.toList

end QuantumCircuit.Json
