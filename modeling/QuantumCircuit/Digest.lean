/-! The SHA-1 digest of a list of bytes: the message is padded to whole blocks of 64
bytes, each block is expanded to eighty words, and eighty rounds mix them into five
words of state. Words are 32 bits wide and addition wraps. -/

namespace QuantumCircuit.Sha1

/-- The five words of state. -/
structure State where
  a : UInt32
  b : UInt32
  c : UInt32
  d : UInt32
  e : UInt32
deriving DecidableEq

def initial : State := ⟨0x67452301, 0xEFCDAB89, 0x98BADCFE, 0x10325476, 0xC3D2E1F0⟩

def rotateLeft (x : UInt32) (n : UInt32) : UInt32 := (x <<< n) ||| (x >>> (32 - n))

/-! ### Blocks -/

/-- The lowest `count` bytes of `n`, most significant first. -/
def bigEndian (count n : Nat) : List UInt8 :=
  ((List.range count).map fun i => UInt8.ofNat (n >>> (8 * i))).reverse

/-- A one bit, zeros up to a whole number of blocks, and the message's length in bits. -/
def padded (message : List UInt8) : List UInt8 :=
  let zeros := (119 - message.length % 64) % 64
  message ++ 0x80 :: List.replicate zeros 0 ++ bigEndian 8 (8 * message.length)

/-- The big-endian number of a list of bytes. -/
def number (bytes : List UInt8) : Nat := bytes.foldl (fun n b => n * 256 + b.toNat) 0

/-- The big-endian words of a list of bytes; bytes that do not fill a word are dropped. -/
def words : List UInt8 → List UInt32
  | a :: b :: c :: d :: rest =>
    ((a.toUInt32 <<< 24) ||| (b.toUInt32 <<< 16) ||| (c.toUInt32 <<< 8) ||| d.toUInt32)
      :: words rest
  | _ => []

/-! ### Compression -/

/-- Appends `count` words; each mixes the 3rd, 8th, 14th and 16th word before it. -/
def expand : Nat → Array UInt32 → Array UInt32
  | 0, ws => ws
  | count + 1, ws =>
    let back (n : Nat) : UInt32 := ws.getD (ws.size - n) 0
    expand count (ws.push (rotateLeft (back 3 ^^^ back 8 ^^^ back 14 ^^^ back 16) 1))

/-- The eighty words of a block of sixteen. -/
def schedule (block : List UInt32) : Array UInt32 := expand 64 block.toArray

/-- The mixing function of round `i`. -/
def mixing (i : Nat) (b c d : UInt32) : UInt32 :=
  if i < 20 then (b &&& c) ||| (~~~b &&& d)
  else if i < 40 then b ^^^ c ^^^ d
  else if i < 60 then (b &&& c) ||| (b &&& d) ||| (c &&& d)
  else b ^^^ c ^^^ d

/-- The constant of round `i`. -/
def constant (i : Nat) : UInt32 :=
  if i < 20 then 0x5A827999
  else if i < 40 then 0x6ED9EBA1
  else if i < 60 then 0x8F1BBCDC
  else 0xCA62C1D6

/-- Rounds from round `i` on, one per word. -/
def roundsFrom (i : Nat) (a b c d e : UInt32) : List UInt32 → State
  | [] => ⟨a, b, c, d, e⟩
  | w :: ws =>
    roundsFrom (i + 1) (rotateLeft a 5 + mixing i b c d + e + constant i + w) a (rotateLeft b 30)
      c d ws

def compress (s : State) (block : List UInt32) : State :=
  let t := roundsFrom 0 s.a s.b s.c s.d s.e (schedule block).toList
  ⟨s.a + t.a, s.b + t.b, s.c + t.c, s.d + t.d, s.e + t.e⟩

/-- Compresses `count` blocks of sixteen words. -/
def compressBlocks : Nat → State → List UInt32 → State
  | 0, s, _ => s
  | count + 1, s, ws => compressBlocks count (compress s (ws.take 16)) (ws.drop 16)

/-- The twenty bytes of the digest. -/
def digest (message : List UInt8) : List UInt8 :=
  let ws := words (padded message)
  let s := compressBlocks (ws.length / 16) initial ws
  [s.a, s.b, s.c, s.d, s.e].flatMap fun w => bigEndian 4 w.toNat

end QuantumCircuit.Sha1
