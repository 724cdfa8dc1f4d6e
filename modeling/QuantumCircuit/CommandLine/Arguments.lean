/-! The arguments of the command line: flags, settings with a value, and at most one
verb, which decides what else may follow. Arguments are taken from left to right; a
request for help or for the version is answered when it is met, a fault ends it too. -/

namespace QuantumCircuit.CommandLine

/-! ### What can be asked for -/

inductive Format where
  | json
  | qasm3
deriving DecidableEq

/-- In which form a circuit is wanted, and where; without a file it is printed. -/
structure Output where
  format : Format
  indented : Bool
  file : Option String
deriving DecidableEq

inductive Invocation where
  /-- The demonstration circuit. -/
  | build (output : Output)
  /-- The circuit of a document. -/
  | convert (input : String) (output : Output)
  | version
  | shortVersion
  | help
deriving DecidableEq

/-- Why there is nothing more to take from the arguments. -/
inductive Stop where
  | usage
  | answer (invocation : Invocation)

/-! ### Words of the command line -/

inductive Verb where
  | build
  | convert
  | version
deriving DecidableEq

inductive Flag where
  | verbose
  | version
  | help
  | indented

inductive Setting where
  | format
  | output
  | input

inductive Key where
  | flag (f : Flag)
  | setting (s : Setting)

def longKey? : String → Option Key
  | "verbose" => some (.flag .verbose)
  | "version" => some (.flag .version)
  | "help" => some (.flag .help)
  | "pretty" => some (.flag .indented)
  | "format" => some (.setting .format)
  | "output" => some (.setting .output)
  | "input" => some (.setting .input)
  | _ => none

def shortKey? : Char → Option Key
  | 'v' => some (.flag .verbose)
  | 'V' => some (.flag .version)
  | 'h' => some (.flag .help)
  | 'f' => some (.setting .format)
  | 'o' => some (.setting .output)
  | 'i' => some (.setting .input)
  | _ => none

/-- Whether a key may stand after the verb, or before any. -/
def Key.allowed : Option Verb → Key → Bool
  | _, .flag .verbose => true
  | _, .flag .help => true
  | none, .flag .version => true
  | some .build, .flag .indented => true
  | some .convert, .flag .indented => true
  | some .build, .setting .format => true
  | some .build, .setting .output => true
  | some .convert, .setting _ => true
  | _, _ => false

/-! ### Taking arguments -/

/-- What is known so far. Each setting and each flag but `verbose` counts once. -/
structure Draft where
  verb : Option Verb := none
  format : Option Format := none
  indented : Bool := false
  output : Option String := none
  input : Option String := none

namespace Draft

def raise (d : Draft) : Flag → Except Stop Draft
  | .verbose => .ok d
  | .version => .error (.answer .shortVersion)
  | .help => .error (.answer .help)
  | .indented => if d.indented then .error .usage else .ok { d with indented := true }

def assign (d : Draft) (value : String) : Setting → Except Stop Draft
  | .format =>
    if d.format.isSome then .error .usage
    else if value = "json" then .ok { d with format := some .json }
    else if value = "qasm3" then .ok { d with format := some .qasm3 }
    else .error .usage
  | .output =>
    if d.output.isSome then .error .usage else .ok { d with output := some value }
  | .input =>
    if d.input.isSome then .error .usage else .ok { d with input := some value }

/-- A cluster of short keys. A setting takes what is left of the cluster, or else waits
for the next argument. -/
def cluster (d : Draft) : List Char → Except Stop (Draft × Option Setting)
  | [] => .ok (d, none)
  | c :: cs =>
    match shortKey? c with
    | none => .error .usage
    | some key =>
      if key.allowed d.verb then
        match key with
        | .flag f =>
          match d.raise f with
          | .ok d => cluster d cs
          | .error stop => .error stop
        | .setting s =>
          match cs with
          | [] => .ok (d, some s)
          | '=' :: value => (d.assign (String.ofList value) s).map (·, none)
          | value => (d.assign (String.ofList value) s).map (·, none)
      else .error .usage

/-- A long key, with a value after `=` if there is one. -/
def long (d : Draft) (cs : List Char) : Except Stop (Draft × Option Setting) :=
  let name := cs.takeWhile (· != '=')
  let value := (cs.dropWhile (· != '=')).tail?
  match longKey? (String.ofList name) with
  | none => .error .usage
  | some key =>
    if key.allowed d.verb then
      match key, value with
      | .flag f, none => (d.raise f).map (·, none)
      | .flag _, some _ => .error .usage
      | .setting s, some value => (d.assign (String.ofList value) s).map (·, none)
      | .setting s, none => .ok (d, some s)
    else .error .usage

/-- What the arguments ask for; without a verb, the demonstration circuit. -/
def finish (d : Draft) : Except Stop Invocation :=
  let output : Output := ⟨d.format.getD .json, d.indented, d.output⟩
  match d.verb with
  | none => .ok (.build output)
  | some .build => .ok (.build output)
  | some .version => .ok .version
  | some .convert =>
    match d.input with
    | some input => .ok (.convert input output)
    | none => .error .usage

end Draft

/-- An argument that starts a key, or ends them, and so is no value. -/
def startsKey (arg : String) : Bool :=
  match arg.toList with
  | '-' :: _ :: _ => true
  | _ => false

/-- Help may be asked for on one of the verbs. -/
def helpOn : List String → Except Stop Invocation
  | [] => .ok .help
  | [verb] => if verb ∈ ["build", "convert", "version", "help"] then .ok .help else .error .usage
  | _ => .error .usage

/-- Takes the arguments one by one. -/
def takeArguments (d : Draft) : List String → Except Stop Invocation
  | [] => d.finish
  | arg :: rest =>
    match arg.toList with
    | ['-', '-'] => if rest.isEmpty then d.finish else .error .usage
    | '-' :: c :: cs =>
      match if c = '-' then d.long cs else d.cluster (c :: cs) with
      | .error stop => .error stop
      | .ok (d, none) => takeArguments d rest
      | .ok (d, some setting) =>
        match rest with
        | [] => .error .usage
        | value :: rest =>
          if startsKey value then .error .usage
          else
            match d.assign value setting with
            | .error stop => .error stop
            | .ok d => takeArguments d rest
    | _ =>
      if d.verb.isSome then .error .usage
      else if arg = "build" then takeArguments { d with verb := some .build } rest
      else if arg = "convert" then takeArguments { d with verb := some .convert } rest
      else if arg = "version" then takeArguments { d with verb := some .version } rest
      else if arg = "help" then helpOn rest
      else .error .usage

/-- What the arguments ask for, or nothing if they cannot be understood. -/
def Invocation.ofArguments? (args : List String) : Option Invocation :=
  match takeArguments {} args with
  | .ok invocation => some invocation
  | .error (.answer invocation) => some invocation
  | .error .usage => none

end QuantumCircuit.CommandLine
