import QuantumCircuit.Digest
import QuantumCircuit.Json.Literal

/-! Identifiers of 128 bits. Their text is 32 hexadecimal digits in groups of 8, 4, 4,
4 and 12; it may also be read without the hyphens, inside braces, or after the word
`urn:uuid:` in letters of either case. An identifier derived from a name is the digest
of a namespace and the name, with the bits set that mark it as such. -/

namespace QuantumCircuit

structure Uuid where
  bits : BitVec 128
deriving DecidableEq, Inhabited

namespace Uuid

/-! ### Text -/

/-- The lowest `count` hexadecimal digits of `n`, most significant first. -/
def hexDigits : Nat → Nat → List Char
  | 0, _ => []
  | count + 1, n => hexDigits count (n / 16) ++ [Json.hexDigit (n % 16)]

/-- Digits in groups of 8, 4, 4, 4 and the rest. -/
def hyphenate (ds : List Char) : List Char :=
  ds.take 8 ++ '-' :: (ds.drop 8).take 4 ++ '-' :: (ds.drop 12).take 4
    ++ '-' :: (ds.drop 16).take 4 ++ '-' :: ds.drop 20

def text (u : Uuid) : String := String.ofList (hyphenate (hexDigits 32 u.bits.toNat))

/-- Reads 32 digits. -/
def ofDigits? (ds : List Char) : Option Uuid :=
  if ds.length = 32 then (Json.hexNumber? ds).map fun n => ⟨BitVec.ofNat 128 n⟩ else none

/-- Reads 36 characters with hyphens at the four places where they belong. -/
def ofHyphenated? (cs : List Char) : Option Uuid :=
  let ds := cs.filter (· != '-')
  if hyphenate ds = cs then ofDigits? ds else none

/-- Reads any of the accepted forms. -/
def ofText? (s : String) : Option Uuid :=
  let cs := s.toList
  if cs.length = 32 then ofDigits? cs
  else if cs.length = 36 then ofHyphenated? cs
  else if cs.length = 38 then
    if cs.head? = some '\x7b' && cs.getLast? = some '\x7d' then ofHyphenated? (cs.drop 1).dropLast
    else none
  else if cs.length = 45 then
    if (cs.take 9).map Char.toLower = "urn:uuid:".toList then ofHyphenated? (cs.drop 9) else none
  else none

/-! ### Identifiers from names -/

def ofBytes (bytes : List UInt8) : Uuid := ⟨BitVec.ofNat 128 (Sha1.number bytes)⟩

def bytes (u : Uuid) : List UInt8 := Sha1.bigEndian 16 u.bits.toNat

/-- Sets the four bits of the version to 5 and the two of the variant to 2. -/
def markNamed (u : Uuid) : Uuid :=
  let kept := u.bits &&& ~~~(BitVec.ofNat 128 (0xF <<< 76 ||| 0x3 <<< 62))
  ⟨kept ||| BitVec.ofNat 128 (0x5 <<< 76 ||| 0x2 <<< 62)⟩

/-- The identifier of `name` within a namespace. -/
def named (space : Uuid) (name : List UInt8) : Uuid :=
  markNamed (ofBytes ((Sha1.digest (space.bytes ++ name)).take 16))

/-- The namespace of object identifiers. -/
def objectSpace : Uuid := ⟨0x6ba7b8129dad11d180b400c04fd430c8#128⟩

end Uuid

end QuantumCircuit
