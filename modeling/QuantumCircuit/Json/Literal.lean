import QuantumCircuit.Json.Failure

/-! String literals of a JSON text. Writing escapes quotes, backslashes and control
characters and nothing else. Reading takes every escape; `\u` names a UTF-16 unit, so
a character beyond the first plane takes two of them. A strict reading wants such
units paired up, a skimming one does not look. -/

namespace QuantumCircuit.Json

/-! ### Hexadecimal digits -/

def hexDigit (n : Nat) : Char :=
  if n < 10 then Char.ofNat ('0'.toNat + n) else Char.ofNat ('a'.toNat + (n - 10))

/-- The value of a digit, of either case. -/
def hexValue? (c : Char) : Option Nat :=
  if '0' ≤ c && c ≤ '9' then some (c.toNat - '0'.toNat)
  else if 'a' ≤ c && c ≤ 'f' then some (c.toNat - 'a'.toNat + 10)
  else if 'A' ≤ c && c ≤ 'F' then some (c.toNat - 'A'.toNat + 10)
  else none

theorem hexValue?_hexDigit {n : Nat} (h : n < 16) : hexValue? (hexDigit n) = some n := by
  have all : ∀ k ∈ List.range 16, hexValue? (hexDigit k) = some k := by decide
  exact all n (List.mem_range.2 h)

/-- The number that a string of hexadecimal digits spells. -/
def hexNumber? (cs : List Char) : Option Nat :=
  cs.foldlM (fun n c => (hexValue? c).map (n * 16 + ·)) 0

namespace Literal

/-! ### Writing -/

/-- The spelling of one character inside a literal. -/
def escape (c : Char) : List Char :=
  if c = '"' then ['\\', '"']
  else if c = '\\' then ['\\', '\\']
  else if c = '\x08' then ['\\', 'b']
  else if c = '\x0c' then ['\\', 'f']
  else if c = '\n' then ['\\', 'n']
  else if c = '\r' then ['\\', 'r']
  else if c = '\t' then ['\\', 't']
  else if c.toNat < 0x20 then
    ['\\', 'u', '0', '0', hexDigit (c.toNat / 16), hexDigit (c.toNat % 16)]
  else [c]

/-- The literal that spells `s`, with its quotes. -/
def write (s : String) : String :=
  String.ofList ('"' :: s.toList.flatMap escape ++ ['"'])

/-! ### Reading -/

/-- What one piece of a literal stands for: a character, or a UTF-16 unit. -/
inductive Fragment where
  | char (c : Char)
  | unit (u : Nat)
deriving DecidableEq

/-- The character that a backslash and `c` stand for, `u` aside. -/
def shortEscape? (c : Char) : Option Char :=
  if c = '"' then some '"'
  else if c = '\\' then some '\\'
  else if c = '/' then some '/'
  else if c = 'b' then some '\x08'
  else if c = 'f' then some '\x0c'
  else if c = 'n' then some '\n'
  else if c = 'r' then some '\r'
  else if c = 't' then some '\t'
  else none

/-- The number of bytes of a text in UTF-8. -/
def byteLength (cs : List Char) : Nat := (String.ofList cs).utf8ByteSize

/-- The fragments of a literal after its opening quote, and what follows the closing
one. A `\u` takes the next four bytes of the text, wherever the literal ends. -/
def fragments : List Char → List Fragment × Except Failure (List Char)
  | [] => ([], .error .truncated)
  | '"' :: rest => ([], .ok rest)
  | '\\' :: 'u' :: a :: b :: c :: d :: rest =>
    match hexNumber? [a, b, c, d] with
    | some u => (fragments rest).map (.unit u :: ·) id
    | none => ([], .error .malformed)
  | '\\' :: 'u' :: rest =>
    ([], .error (if byteLength rest < 4 then .truncated else .malformed))
  | '\\' :: c :: rest =>
    match shortEscape? c with
    | some x => (fragments rest).map (.char x :: ·) id
    | none => ([], .error .malformed)
  | ['\\'] => ([], .error .truncated)
  | c :: rest =>
    if c.toNat < 0x20 then ([], .error .malformed)
    else (fragments rest).map (.char c :: ·) id

def isLeadingUnit (u : Nat) : Bool := 0xD800 ≤ u && u < 0xDC00

def isTrailingUnit (u : Nat) : Bool := 0xDC00 ≤ u && u < 0xE000

/-- The character of a leading and a trailing unit. -/
def pairChar (lead trail : Nat) : Char :=
  Char.ofNat (0x10000 + (lead - 0xD800) * 0x400 + (trail - 0xDC00))

/-- The characters of a run of fragments that ends as `ending` says. A leading unit
wants a trailing one right after it, and a trailing unit a leading one before it. -/
def chars (ending : Except Failure (List Char)) : List Fragment → Except Failure (List Char)
  | [] => ending.map fun _ => []
  | .char c :: rest => (chars ending rest).map (c :: ·)
  | .unit u :: rest =>
    if isTrailingUnit u then .error .malformed
    else if isLeadingUnit u then
      match rest with
      | .unit v :: rest =>
        if isTrailingUnit v then (chars ending rest).map (pairChar u v :: ·)
        else .error .malformed
      | .char _ :: _ => .error .malformed
      | [] => ending.bind fun _ => .error .malformed
    else (chars ending rest).map (Char.ofNat u :: ·)

/-- Reads a literal after its opening quote and returns what follows the closing one. -/
def scan (cs : List Char) : Lexeme String × List Char :=
  let (pieces, ending) := fragments cs
  (⟨(chars ending pieces).map String.ofList, ending.map fun _ => ()⟩, ending.toOption.getD [])

end Literal

end QuantumCircuit.Json
