/-! Why a text could not be read. A reader meets one failure, the first in the order
of the text; where in the text it stands is not told. -/

namespace QuantumCircuit.Json

inductive Failure where
  /-- The text is not well-formed at this point. -/
  | malformed
  /-- A value is well-formed, and is not of the shape wanted here. -/
  | misshapen
  /-- The text ends where more of it is needed. -/
  | truncated
deriving DecidableEq, Inhabited

def Failure.message : Failure → String
  | .malformed => "the text is not well-formed"
  | .misshapen => "a value has the wrong shape"
  | .truncated => "the text ends too early"

/-- A lexical piece of the text, read in two ways. A strict reading wants the value it
spells; a skimming one only passes over it and checks less. The text can be read on
after the piece when skimming succeeds. -/
structure Lexeme (α : Type) where
  strict : Except Failure α
  skim : Except Failure Unit

namespace Lexeme

/-- A piece that goes wrong in both readings, perhaps for different reasons. -/
def broken {α : Type} (strict skim : Failure) : Lexeme α := ⟨.error strict, .error skim⟩

def whole {α : Type} (a : α) : Lexeme α := ⟨.ok a, .ok ()⟩

end Lexeme

end QuantumCircuit.Json
