import QuantumCircuit.Json.Failure

/-! Numerals of a JSON text: an optional minus sign, digits without a leading zero, an
optional fraction and an optional exponent. A numeral is kept as it is spelled; the
only value taken from one is that of a plain natural number.

A strict reading refuses a numeral too large for a double: `Numeral.finite` says
which those are. Of the digits only as many count as fit in 64 bits; the number they
form is rounded to a double and multiplied by the double next to the power of ten
that is left, and the numeral is finite when this product is. -/

namespace QuantumCircuit.Json

structure Numeral where
  negative : Bool
  whole : List Char
  fraction : List Char
  /-- Whether the exponent is negative, and its digits. -/
  exponent : Option (Bool × List Char)
deriving DecidableEq, Inhabited

namespace Numeral

/-- The value of a string of decimal digits. -/
def digitsValue (ds : List Char) : Nat := Nat.ofDigitChars 10 ds 0

def ofNat (n : Nat) : Numeral := ⟨false, Nat.toDigits 10 n, [], none⟩

/-- The value of a numeral with neither sign, fraction nor exponent, if it fits in 64
bits. -/
def toNat? (n : Numeral) : Option Nat :=
  if n.negative || !n.fraction.isEmpty || n.exponent.isSome then none
  else if digitsValue n.whole < UInt64.size then some (digitsValue n.whole)
  else none

/-! ### Range -/

/-- Appends digits to `s` while the result fits in 64 bits, and counts those left over. -/
def absorb (s : Nat) : List Char → Nat × Nat
  | [] => (s, 0)
  | d :: ds =>
    if s * 10 + (d.toNat - '0'.toNat) < UInt64.size then
      absorb (s * 10 + (d.toNat - '0'.toNat)) ds
    else (s, ds.length + 1)

/-- The natural number next to `n` with at most 53 significant bits; a tie goes to the
even one. -/
def roundTo53 (n : Nat) : Nat :=
  let drop := n.log2 + 1 - 53
  let q := n >>> drop
  let r := n % 1 <<< drop
  let up := 1 <<< drop < 2 * r || (1 <<< drop == 2 * r && q % 2 == 1)
  (if up then q + 1 else q) <<< drop

/-- Products from here on round to infinity. -/
def infinityFrom : Nat := 1 <<< 1024 - 1 <<< 970

/-- The digits that count, and the power of ten they stand for. -/
def significand (n : Numeral) : Nat × Int :=
  let (s, excess) := absorb 0 n.whole
  let (s, unread) := absorb s n.fraction
  let e : Int := match n.exponent with
    | none => 0
    | some (true, ds) => - (digitsValue ds : Int)
    | some (false, ds) => digitsValue ds
  (s, excess - (n.fraction.length - unread : Nat) + e)

/-- Whether the numeral is in the range of doubles. -/
def finite (n : Numeral) : Bool :=
  let (s, e) := n.significand
  s == 0 || e < 0 || (e ≤ 308 && roundTo53 s * roundTo53 (Nat.pow 10 e.toNat) < infinityFrom)

/-! ### Reading -/

/-- A numeral that the text cuts off. -/
def cutOff : Lexeme Numeral := .broken .truncated .malformed

def refused : Lexeme Numeral := .broken .malformed .malformed

/-- A digit is missing in front of `rest`. -/
def noDigit (rest : List Char) : Lexeme Numeral × List Char :=
  (if rest.isEmpty then cutOff else refused, [])

def complete (n : Numeral) : Lexeme Numeral :=
  ⟨if n.finite then .ok n else .error .malformed, .ok ()⟩

def digitsOf (cs : List Char) : List Char := cs.takeWhile Char.isDigit

def afterDigits (cs : List Char) : List Char := cs.dropWhile Char.isDigit

/-- The digits of an exponent, after its sign. -/
def scanExponent (negative : Bool) (whole fraction : List Char) (down : Bool)
    (cs : List Char) : Lexeme Numeral × List Char :=
  if (digitsOf cs).isEmpty then noDigit cs
  else (complete ⟨negative, whole, fraction, some (down, digitsOf cs)⟩, afterDigits cs)

/-- What may follow the digits of the whole part and of the fraction. -/
def scanTail (negative : Bool) (whole fraction : List Char) :
    List Char → Lexeme Numeral × List Char
  | [] => (complete ⟨negative, whole, fraction, none⟩, [])
  | c :: cs =>
    if c == 'e' || c == 'E' then
      match cs with
      | '+' :: ds => scanExponent negative whole fraction false ds
      | '-' :: ds => scanExponent negative whole fraction true ds
      | ds => scanExponent negative whole fraction false ds
    else (complete ⟨negative, whole, fraction, none⟩, c :: cs)

/-- What may follow the digits of the whole part. -/
def scanFraction (negative : Bool) (whole : List Char) :
    List Char → Lexeme Numeral × List Char
  | '.' :: cs =>
    if (digitsOf cs).isEmpty then noDigit cs
    else scanTail negative whole (digitsOf cs) (afterDigits cs)
  | cs => scanTail negative whole [] cs

/-- A numeral after its sign. A leading zero stands alone. -/
def scanWhole (negative : Bool) : List Char → Lexeme Numeral × List Char
  | [] => (cutOff, [])
  | c :: cs =>
    if c == '0' then
      if (digitsOf cs).isEmpty then scanFraction negative ['0'] cs else (refused, [])
    else if c.isDigit then scanFraction negative (c :: digitsOf cs) (afterDigits cs)
    else (refused, [])

/-- Reads the numeral at the front of the text and returns what follows it. -/
def scan : List Char → Lexeme Numeral × List Char
  | '-' :: cs => scanWhole true cs
  | cs => scanWhole false cs

end Numeral

end QuantumCircuit.Json
