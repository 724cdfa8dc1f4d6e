import QuantumCircuit.Json.Value

/-! The text of a JSON value, on one line without blanks or indented by two spaces a
level. Members are written in the order they are held. A text is the tokens of its
value put together: scalars, keys, brackets and what stands between them. The tokens
are listed from the back, each function putting its own in front of `rest`. -/

namespace QuantumCircuit.Json

def Numeral.text (n : Numeral) : String :=
  (if n.negative then "-" else "") ++ String.ofList n.whole
    ++ (if n.fraction.isEmpty then "" else "." ++ String.ofList n.fraction)
    ++ match n.exponent with
      | none => ""
      | some (down, ds) => "e" ++ (if down then "-" else "") ++ String.ofList ds

def boolText (b : Bool) : String := if b then "true" else "false"

/-! ### On one line -/

mutual

def tokens (rest : List String) : Json → List String
  | .null => "null" :: rest
  | .bool b => boolText b :: rest
  | .number n => n.text :: rest
  | .string s => Literal.write s :: rest
  | .array items => "[" :: itemTokens ("]" :: rest) items
  | .object members => "\x7b" :: memberTokens ("\x7d" :: rest) members

def itemTokens (rest : List String) : List Json → List String
  | [] => rest
  | [v] => v.tokens rest
  | v :: vs => v.tokens ("," :: itemTokens rest vs)

def memberTokens (rest : List String) : List (String × Json) → List String
  | [] => rest
  | [(k, v)] => Literal.write k :: ":" :: v.tokens rest
  | (k, v) :: ms => Literal.write k :: ":" :: v.tokens ("," :: memberTokens rest ms)

end

def compact (v : Json) : String := String.join (v.tokens [])

/-! ### Indented -/

/-- A new line, indented for `level` open containers. -/
def newline (level : Nat) : String := "\n" ++ String.ofList (List.replicate (2 * level) ' ')

mutual

/-- The indented tokens inside `level` open containers. Empty containers stay closed. -/
def tokensAt (level : Nat) (rest : List String) : Json → List String
  | .null => "null" :: rest
  | .bool b => boolText b :: rest
  | .number n => n.text :: rest
  | .string s => Literal.write s :: rest
  | .array [] => "[]" :: rest
  | .array items => "[" :: itemTokensAt (level + 1) (newline level :: "]" :: rest) items
  | .object [] => "\x7b\x7d" :: rest
  | .object members =>
    "\x7b" :: memberTokensAt (level + 1) (newline level :: "\x7d" :: rest) members

def itemTokensAt (level : Nat) (rest : List String) : List Json → List String
  | [] => rest
  | [v] => newline level :: tokensAt level rest v
  | v :: vs => newline level :: tokensAt level ("," :: itemTokensAt level rest vs) v

def memberTokensAt (level : Nat) (rest : List String) : List (String × Json) → List String
  | [] => rest
  | [(k, v)] => newline level :: Literal.write k :: ": " :: tokensAt level rest v
  | (k, v) :: ms =>
    newline level :: Literal.write k :: ": "
      :: tokensAt level ("," :: memberTokensAt level rest ms) v

end

def pretty (v : Json) : String := String.join (tokensAt 0 [] v)

/-- The text of a value, indented or on one line. -/
def text (indented : Bool) (v : Json) : String := if indented then v.pretty else v.compact

end QuantumCircuit.Json
