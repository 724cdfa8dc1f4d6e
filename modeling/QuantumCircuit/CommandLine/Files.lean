/-! Files as a run sees them. A `Disk` is what a run may do with files, in any monad.
`Files` is a tree of files held as a value, with one entry per file. Besides the
directories that lead to a file there are the root, those that every system has below
it, and the directory in which a run starts. The name of that one is not told, so no
path from outside leads into it. Permissions and links are left out. -/

namespace QuantumCircuit.CommandLine

/-- Why a file could not be read or written. -/
inductive FileFault where
  | noSuchFile
  | isDirectory
  | notDirectory
  | nameTooLong
  | noSpace
  | notText
  | other (description : String)

def FileFault.message : FileFault → String
  | .noSuchFile => "No such file or directory (os error 2)"
  | .isDirectory => "Is a directory (os error 21)"
  | .notDirectory => "Not a directory (os error 20)"
  | .nameTooLong => "File name too long (os error 36)"
  | .noSpace => "No space left on device (os error 28)"
  | .notText => "stream did not contain valid UTF-8"
  | .other description => description

/-- What a run may do with files. -/
structure Disk (m : Type → Type) where
  /-- Whether a file or directory is there. -/
  holds : String → m Bool
  read : String → m (Except FileFault String)
  write : String → String → m (Except FileFault Unit)

/-! ### Paths -/

/-- Where a file or directory is: the names that lead to it from the root. A name that
cannot be spelled is `none`. -/
abbrev Location := List (Option String)

/-- Where a run starts. -/
def startDirectory : Location := [some "tmp", none]

/-- What stands before, between and after the slashes of a text. -/
def splitSlashes : List Char → List (List Char)
  | [] => [[]]
  | c :: cs =>
    if c = '/' then [] :: splitSlashes cs
    else
      match splitSlashes cs with
      | part :: parts => (c :: part) :: parts
      | [] => [[c]]

/-- The parts of a path between slashes; repeated slashes count as one. -/
def pathParts (path : String) : List String :=
  ((splitSlashes path.toList).filter fun part => !part.isEmpty).map String.ofList

def isAbsolute (path : String) : Bool := path.toList.head? == some '/'

def endsInSlash (path : String) : Bool := path.toList.getLast? == some '/'

/-- The names of the directories that every system has below the root. -/
def systemDirectories : List String :=
  ["bin", "boot", "dev", "etc", "home", "lib", "media", "mnt", "opt", "proc", "root", "run",
    "sbin", "srv", "sys", "tmp", "usr", "var"]

/-- The location in the directory of a run that a path without dots leads to. -/
def locationInside (path : String) : Location := startDirectory ++ (pathParts path).map some

/-- Where a path starts. -/
def pathStart (path : String) : Location := if isAbsolute path then [] else startDirectory

/-- The most bytes that one part of a path may have. -/
def nameLimit : Nat := 255

/-- The most bytes that a path may have. -/
def pathLimit : Nat := 4095

/-- A tree of files: the location and the bytes of each. -/
abbrev Files := List (Location × ByteArray)

namespace Files

/-! ### Walking along a path -/

def isDirectory (files : Files) (place : Location) : Bool :=
  place.isPrefixOf startDirectory
    || (systemDirectories.map fun name => [some name]).contains place
    || files.any fun (file, _) => place.isPrefixOf file && place != file

/-- What has a name in a directory. -/
inductive Entry where
  | file (bytes : ByteArray)
  | directory
  | vacant

def entry (files : Files) (place : Location) (name : String) : Except FileFault Entry :=
  if nameLimit < name.utf8ByteSize then .error .nameTooLong
  else
    match files.lookup (place ++ [some name]) with
    | some bytes => .ok (.file bytes)
    | none => .ok (if files.isDirectory (place ++ [some name]) then .directory else .vacant)

/-- The directory that the parts of a path lead to. One dot stays where it is, and two
go up; at the root there is no further up. -/
def enter (files : Files) (place : Location) : List String → Except FileFault Location
  | [] => .ok place
  | part :: parts =>
    if part = "." then enter files place parts
    else if part = ".." then enter files place.dropLast parts
    else
      match files.entry place part with
      | .error fault => .error fault
      | .ok (.file _) => .error .notDirectory
      | .ok .vacant => .error .noSuchFile
      | .ok .directory => enter files (place ++ [some part]) parts

/-- The directory a path leads to, and the name it ends with there; no name if the
path ends in dots. -/
def approach (files : Files) (path : String) : Except FileFault (Location × Option String) :=
  if path.isEmpty then .error .noSuchFile
  else if pathLimit < path.utf8ByteSize then .error .nameTooLong
  else
    let parts := pathParts path
    match parts.getLast? with
    | none => .ok (pathStart path, none)
    | some name =>
      if name = "." || name = ".." then (files.enter (pathStart path) parts).map (·, none)
      else (files.enter (pathStart path) parts.dropLast).map (·, some name)

/-! ### Reading and writing -/

/-- The bytes at a path. A slash at its end asks for a directory. -/
def get (files : Files) (path : String) : Except FileFault ByteArray := do
  match ← files.approach path with
  | (_, none) => throw .isDirectory
  | (place, some name) =>
    match ← files.entry place name with
    | .file bytes => if endsInSlash path then throw .notDirectory else return bytes
    | .directory => throw .isDirectory
    | .vacant => throw .noSuchFile

/-- Sets the bytes of the file at a location. -/
def set (files : Files) (location : Location) (bytes : ByteArray) : Files :=
  match files with
  | [] => [(location, bytes)]
  | (file, old) :: rest =>
    if file = location then (file, bytes) :: rest else (file, old) :: set rest location bytes

/-- The file that a path leads to when it is written, there already or not. A slash at
its end is refused before the last name is looked up. -/
def target (files : Files) (path : String) : Except FileFault Location := do
  match ← files.approach path with
  | (_, none) => throw .isDirectory
  | (place, some name) =>
    if endsInSlash path then throw .isDirectory
    match ← files.entry place name with
    | .directory => throw .isDirectory
    | _ => return place ++ [some name]

/-- The files after bytes are written to a path. -/
def put (files : Files) (path : String) (bytes : ByteArray) : Except FileFault Files :=
  (files.target path).map (files.set · bytes)

/-- The text at a path. -/
def readText (files : Files) (path : String) : Except FileFault String := do
  match String.fromUTF8? (← files.get path) with
  | some text => return text
  | none => throw .notText

def holds (files : Files) (path : String) : Bool :=
  match files.get path with
  | .ok _ => true
  | .error .isDirectory => true
  | .error _ => false

/-- Runs on files held as a value; a write that fails leaves them as they are. -/
def disk : Disk (StateM Files) where
  holds path := fun files => (files.holds path, files)
  read path := fun files => (files.readText path, files)
  write path text := fun files =>
    match files.put path text.toUTF8 with
    | .ok files => (.ok (), files)
    | .error fault => (.error fault, files)

end Files

end QuantumCircuit.CommandLine
