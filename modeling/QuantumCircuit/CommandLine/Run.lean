import QuantumCircuit.CommandLine.Arguments
import QuantumCircuit.CommandLine.Demonstration
import QuantumCircuit.CommandLine.Files
import QuantumCircuit.Qasm.Emission

/-! Runs of the command line. A run reads at most one file, and writes at most one
after all else has succeeded. It ends with code 0, with 1 when a file, a document or
a circuit is refused, with 2 when the arguments cannot be understood, and with 101 when
a register overflows. -/

namespace QuantumCircuit.CommandLine

/-- How a run ends. -/
structure Outcome where
  code : UInt32
  stdout : String
  stderr : String

/-- Why a run is broken off. -/
inductive RunFault where
  | fileNotFound (path : String)
  | unreadFile (path : String) (fault : FileFault)
  | unloaded (path : String) (error : Error)
  | unbuilt (error : Error)
  | unwritten (path : String) (fault : FileFault)
  | refused (refusal : Qasm.Refusal)

/-- What went wrong, followed by the causes behind it. A refusal that stems from the
circuit has its cause in its own words already. -/
def RunFault.chain : RunFault → List String
  | .fileNotFound path => ["File not found: " ++ path]
  | .unreadFile path fault => ["Failed to read file: " ++ path, fault.message]
  | .unloaded path error => ["Failed to load circuit: " ++ path, error.message]
  | .unbuilt error => [error.message]
  | .unwritten path fault => ["Failed to write file: " ++ path, fault.message]
  | .refused (.circuit error) => [(Qasm.Refusal.circuit error).message, error.message]
  | .refused refusal => [refusal.message]

def RunFault.outcome (fault : RunFault) : Outcome :=
  match fault with
  | .refused (.overflow overflow) => ⟨101, "", overflow.message ++ "\n"⟩
  | fault => ⟨1, "", "Error: " ++ ": ".intercalate fault.chain ++ "\n"⟩

/-! ### The stages of a run -/

/-- The text of a circuit in the form that is wanted. -/
def render (c : Circuit) (output : Output) : Except RunFault String :=
  match output.format with
  | .json => .ok (c.text output.indented)
  | .qasm3 => (Qasm.emit c).mapError .refused

def endsLine (text : String) : Bool := text.toList.getLast? == some '\n'

/-- What is printed of a text: the text itself, or a line of it if its last line has no end. -/
def printed (text : String) : String := if endsLine text then text else text ++ "\n"

/-- What a file holds of a text, with a line end behind it where the text has none. -/
def filed (text : String) : String := if !endsLine text then text.push '\n' else text

section

variable {m : Type → Type} [Monad m]

/-- The circuit of a file. -/
def loadFile (disk : Disk m) (path : String) : m (Except RunFault Circuit) := do
  if ← disk.holds path then
    match ← disk.read path with
    | .error fault => return .error (.unreadFile path fault)
    | .ok text =>
      match Circuit.ofText text with
      | .error error => return .error (.unloaded path error)
      | .ok c => return .ok c
  else return .error (.fileNotFound path)

/-- Prints or writes a circuit; `note` is said about a file that was written. -/
def deliver (disk : Disk m) (c : Except RunFault Circuit) (output : Output)
    (note : String → String) : m Outcome := do
  match c.bind (render · output) with
  | .error fault => return fault.outcome
  | .ok text =>
    match output.file with
    | none => return ⟨0, printed text, ""⟩
    | some path =>
      match ← disk.write path (filed text) with
      | .ok () => return ⟨0, "", note path⟩
      | .error fault => return (RunFault.unwritten path fault).outcome

/-! ### Runs -/

def versionText : String := "\n".intercalate
  ["qcirc v0.3.0 - quantum circuits with classical control", "", "Components:",
    "  qcirc-ir     Circuit model and JSON serialization",
    "  qcirc-qasm3  OpenQASM 3 emitter", "  qcirc-cli    Command-line interface", "",
    "License:    Apache-2.0", ""]

def shortVersionText : String := "qcirc 0.3.0\n"

def helpText : String := "\n".intercalate
  ["Usage: qcirc [-v] [build|convert|version]", "",
    "  build    [-f json|qasm3] [--pretty] [-o FILE]",
    "  convert  -i FILE [-f json|qasm3] [--pretty] [-o FILE]", "  version", ""]

def Invocation.run (disk : Disk m) : Invocation → m Outcome
  | .build output => deliver disk (demonstration.mapError .unbuilt) output fun _ => ""
  | .convert input output => do
    deliver disk (← loadFile disk input) output fun path =>
      "✓ Converted " ++ input ++ " -> " ++ path ++ "\n"
  | .version => return ⟨0, versionText, ""⟩
  | .shortVersion => return ⟨0, shortVersionText, ""⟩
  | .help => return ⟨0, helpText, ""⟩

/-- The run that the arguments ask for. -/
def run (disk : Disk m) (args : List String) : m Outcome :=
  match Invocation.ofArguments? args with
  | some invocation => invocation.run disk
  | none => return ⟨2, "", "error: the arguments were not understood\n\n" ++ helpText⟩

end

end QuantumCircuit.CommandLine
