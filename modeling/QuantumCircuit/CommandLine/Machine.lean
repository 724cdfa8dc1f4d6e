import QuantumCircuit.CommandLine.Run

/-! A machine to run on: files, and the devices that stand among them. A device is found
like a file and reads as an empty one; nothing comes from the standard input. What is
written to a device does not stay in it: it goes to one of the standard streams, is
lost, or is refused. Files that are no devices are read and written as such, but where
the system lists processes and their streams no new one can be made. -/

namespace QuantumCircuit.CommandLine

inductive Device where
  /-- Takes everything and keeps nothing. -/
  | null
  /-- Has no room for anything. -/
  | full
  | stdin
  | stdout
  | stderr
deriving DecidableEq

/-- The devices and where they are. -/
def Device.all : List (Location × Device) :=
  [(["dev", "null"], .null), (["dev", "zero"], .null), (["dev", "random"], .null),
    (["dev", "urandom"], .null), (["dev", "full"], .full),
    (["dev", "stdin"], .stdin), (["dev", "stdout"], .stdout), (["dev", "stderr"], .stderr),
    (["dev", "fd", "0"], .stdin), (["dev", "fd", "1"], .stdout), (["dev", "fd", "2"], .stderr),
    (["proc", "self", "fd", "0"], .stdin), (["proc", "self", "fd", "1"], .stdout),
    (["proc", "self", "fd", "2"], .stderr)].map fun (names, device) => (names.map some, device)

/-- Whether a location lies where only the system makes files. -/
def isReserved (location : Location) : Bool :=
  [some "proc"].isPrefixOf location || [some "dev", some "fd"].isPrefixOf location

/-- The files of a machine, and what its standard streams have received through their
devices. -/
structure Machine where
  files : Files
  stdout : String
  stderr : String

namespace Machine

/-- A machine with these files beside its devices. -/
def ofFiles (files : Files) : Machine :=
  ⟨files ++ Device.all.map fun (location, _) => (location, .empty), "", ""⟩

/-- The machine after a text is written to a device. -/
def feed (m : Machine) (text : String) : Device → Except FileFault Machine
  | .null | .stdin => .ok m
  | .full => .error .noSpace
  | .stdout => .ok { m with stdout := m.stdout ++ text }
  | .stderr => .ok { m with stderr := m.stderr ++ text }

/-- The machine after a text is written to a path. -/
def write (m : Machine) (path text : String) : Except FileFault Machine := do
  let location ← m.files.target path
  match Device.all.lookup location with
  | some device => m.feed text device
  | none =>
    if isReserved location then throw .noSuchFile
    return { m with files := m.files.set location text.toUTF8 }

/-- Runs on a machine held as a value; a write that fails leaves it as it is. -/
def disk : Disk (StateM Machine) where
  holds path := fun m => (m.files.holds path, m)
  read path := fun m => (m.files.readText path, m)
  write path text := fun m =>
    match m.write path text with
    | .ok m => (.ok (), m)
    | .error fault => (.error fault, m)

/-- The run that the arguments ask for. The streams show first what they received
through their devices. -/
def run (m : Machine) (args : List String) : Outcome × Machine :=
  let (outcome, m) := (CommandLine.run disk args).run m
  ({ outcome with stdout := m.stdout ++ outcome.stdout, stderr := m.stderr ++ outcome.stderr }, m)

end Machine

end QuantumCircuit.CommandLine
