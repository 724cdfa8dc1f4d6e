import QuantumCircuit.CommandLine.Run

/-! The program: a run of the command line on the files of the machine. -/

namespace QuantumCircuit.CommandLine

/-- The fault behind an exception on a file. -/
def FileFault.ofException : IO.Error → FileFault
  | .noFileOrDirectory _ _ _ => .noSuchFile
  | .inappropriateType _ 21 _ => .isDirectory
  | .inappropriateType _ 20 _ => .notDirectory
  | .invalidArgument _ 36 _ => .nameTooLong
  | .resourceExhausted _ 28 _ => .noSpace
  | e => .other (toString e)

def onFile {α : Type} (action : IO α) : IO (Except FileFault α) := do
  try return .ok (← action) catch e => return .error (.ofException e)

/-- The files of the machine. -/
def machineDisk : Disk IO where
  holds path := do
    match ← onFile (IO.FS.Handle.mk path .read) with
    | .error .noSuchFile => return false
    | .error .notDirectory => return false
    | .error .nameTooLong => return false
    | _ => return true
  read path := do
    match ← onFile (IO.FS.readBinFile path) with
    | .error fault => return .error fault
    | .ok bytes =>
      match String.fromUTF8? bytes with
      | some text => return .ok text
      | none => return .error .notText
  write path text := onFile (IO.FS.withFile path .write fun file => do
    file.putStr text
    file.flush)

end QuantumCircuit.CommandLine

open QuantumCircuit.CommandLine in
def main (args : List String) : IO UInt32 := do
  let outcome ← run machineDisk args
  (← IO.getStdout).putStr outcome.stdout
  (← IO.getStderr).putStr outcome.stderr
  return outcome.code
