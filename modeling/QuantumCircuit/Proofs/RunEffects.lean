import QuantumCircuit.CommandLine.Machine
import QuantumCircuit.Proofs.Conversion
import QuantumCircuit.Proofs.WrittenFiles

/-! What a run leaves behind. A run that is asked for a circuit has its whole text before it touches
anything, so a run that fails prints nothing and changes no file, wherever it fails. One that
succeeds prints the text, or sets one file to the very bytes that it would have printed. On a
machine with devices the same is true of all files; only what is written to a device goes where
the device takes it. -/

namespace QuantumCircuit.CommandLine

/-! ### What runs are about -/

/-- Where the circuit of a run comes from. -/
inductive Subject where
  | demonstration
  | document (path : String)

namespace Subject

/-- The invocation that asks for the circuit. -/
def invocation (subject : Subject) (output : Output) : Invocation :=
  match subject with
  | .demonstration => .build output
  | .document path => .convert path output

/-- The circuit that is asked for, as the files are. -/
def Gives (files : Files) (c : Circuit) : Subject → Prop
  | .demonstration => CommandLine.demonstration = .ok c
  | .document path => ∃ text, files.readText path = .ok text ∧ Circuit.ofText text = .ok c

end Subject

/-- The form of a circuit in a format. -/
def Format.Renders (indented : Bool) (c : Circuit) (text : String) : Format → Prop
  | .json => text = c.text indented
  | .qasm3 => Qasm.emit c = .ok text

/-- The second text is the first one, with a line end if that has none. -/
def LineEnded (text ended : String) : Prop :=
  ((∃ t, text = t ++ "\n") → ended = text) ∧ ((¬ ∃ t, text = t ++ "\n") → ended = text ++ "\n")

theorem endsLine_iff {text : String} : endsLine text ↔ ∃ t, text = t ++ "\n" := by
  rw [endsLine, beq_iff_eq, List.getLast?_eq_some_iff]
  constructor
  · rintro ⟨cs, hcs⟩
    refine ⟨String.ofList cs, String.toList_inj.1 ?_⟩
    simp [hcs]
  · rintro ⟨t, rfl⟩
    exact ⟨t.toList, by simp⟩

theorem lineEnded_iff {text ended : String} : LineEnded text ended ↔ ended = printed text := by
  rw [LineEnded, printed]
  by_cases h : ∃ t, text = t ++ "\n"
  · simp [h, endsLine_iff.2 h]
  · simp [h, mt endsLine_iff.1 h]

/-! ### The stages of a run -/

theorem RunFault.outcome_fails (fault : RunFault) :
    fault.outcome.code ≠ 0 ∧ fault.outcome.stdout = "" := by
  unfold outcome
  split <;> simp

theorem mapError_eq_ok_iff {ε δ α : Type} {x : Except ε α} {f : ε → δ} {a : α} :
    x.mapError f = .ok a ↔ x = .ok a := by
  cases x <;> simp [Except.mapError]

/-- Looking at a disk shows files and changes nothing, and neither does a write that fails. -/
structure Disk.Lawful {σ : Type} (disk : Disk (StateM σ)) (files : σ → Files) : Prop where
  holds : ∀ path s, disk.holds path s = ((files s).holds path, s)
  read : ∀ path s, disk.read path s = ((files s).readText path, s)
  write_error : ∀ path text s fault s', disk.write path text s = (.error fault, s') → s' = s

theorem Files.disk_lawful : Files.disk.Lawful id where
  holds _ _ := rfl
  read _ _ := rfl
  write_error path text files fault files' h := by
    simp only [disk] at h
    split at h <;> cases h
    rfl

theorem Machine.disk_lawful : Machine.disk.Lawful Machine.files where
  holds _ _ := rfl
  read _ _ := rfl
  write_error path text m fault m' h := by
    simp only [disk] at h
    split at h <;> cases h
    rfl

namespace Subject

/-- The circuit that is asked for, or why there is none. -/
def load (files : Files) : Subject → Except RunFault Circuit
  | .demonstration => CommandLine.demonstration.mapError .unbuilt
  | .document path =>
    if files.holds path then
      match files.readText path with
      | .error fault => .error (.unreadFile path fault)
      | .ok text => (Circuit.ofText text).mapError (.unloaded path)
    else .error (.fileNotFound path)

/-- What is said about a file that was written. -/
def note (subject : Subject) (path : String) : String :=
  match subject with
  | .demonstration => ""
  | .document input => "✓ Converted " ++ input ++ " -> " ++ path ++ "\n"

/-- How a run ends that has written its text, or tried to. -/
def wrote (subject : Subject) (path : String) : Except FileFault Unit → Outcome
  | .ok () => ⟨0, "", subject.note path⟩
  | .error fault => (RunFault.unwritten path fault).outcome

theorem wrote_stdout (subject : Subject) (path : String) (result : Except FileFault Unit) :
    (subject.wrote path result).stdout = "" := by
  cases result with
  | ok => rfl
  | error fault => exact (RunFault.unwritten path fault).outcome_fails.2

theorem load_eq_ok_iff {files : Files} {subject : Subject} {c : Circuit} :
    subject.load files = .ok c ↔ subject.Gives files c := by
  cases subject with
  | demonstration =>
    rw [load, Gives]
    exact mapError_eq_ok_iff
  | document path =>
    rw [load, Gives]
    constructor
    · intro h
      split_ifs at h
      split at h
      next => cases h
      next text hread => exact ⟨text, hread, mapError_eq_ok_iff.1 h⟩
    · rintro ⟨text, hread, hc⟩
      rw [if_pos (Files.holds_of_readText hread), hread]
      exact mapError_eq_ok_iff.2 hc

/-- The file makes no difference to the text. -/
theorem render_file (format : Format) (indented : Bool) (file : Option String) :
    (render · ⟨format, indented, file⟩) = (render · ⟨format, indented, none⟩) := by
  funext c
  cases format <;> rfl

/-- The text that a run is about to print or write, or why there is none. -/
def produce (subject : Subject) (format : Format) (indented : Bool) (files : Files) :
    Except RunFault String :=
  (subject.load files).bind (render · ⟨format, indented, none⟩)

theorem produce_eq_ok_iff {subject : Subject} {format : Format} {indented : Bool} {files : Files}
    {text : String} : subject.produce format indented files = .ok text ↔
      ∃ c, subject.Gives files c ∧ format.Renders indented c text := by
  rw [produce]
  refine bind_eq_ok_iff.trans (exists_congr fun c => ?_)
  rw [load_eq_ok_iff]
  refine and_congr_right fun _ => ?_
  cases format with
  | json => simp [render, Format.Renders, eq_comm]
  | qasm3 => exact mapError_eq_ok_iff

section

variable {σ : Type} {disk : Disk (StateM σ)} {files : σ → Files} {subject : Subject}
  {format : Format} {indented : Bool}

theorem loadFile_run (h : disk.Lawful files) (path : String) (s : σ) :
    loadFile disk path s = ((Subject.document path).load (files s), s) := by
  simp only [loadFile, bind, StateT.bind, h.holds, load]
  by_cases hholds : (files s).holds path
  · simp only [hholds, if_true, bind, StateT.bind, h.read]
    cases (files s).readText path with
    | error fault => rfl
    | ok text => cases hc : Circuit.ofText text <;> simp only [hc] <;> rfl
  · simp only [hholds]
    rfl

theorem invocation_run (h : disk.Lawful files) (subject : Subject) (output : Output) (s : σ) :
    (subject.invocation output).run disk s =
      deliver disk (subject.load (files s)) output subject.note s := by
  cases subject with
  | demonstration => rfl
  | document path =>
    simp only [invocation, Invocation.run, bind, StateT.bind, loadFile_run h]
    rfl

/-- Without a text nothing is delivered. -/
theorem run_of_error (h : disk.Lawful files) {s : σ} {fault : RunFault}
    (hproduce : subject.produce format indented (files s) = .error fault) (file : Option String) :
    (subject.invocation ⟨format, indented, file⟩).run disk s = (fault.outcome, s) := by
  rw [produce] at hproduce
  rw [invocation_run h, deliver, render_file, hproduce]
  rfl

/-- Without a file the text is printed. -/
theorem run_print (h : disk.Lawful files) {s : σ} {text : String}
    (hproduce : subject.produce format indented (files s) = .ok text) :
    (subject.invocation ⟨format, indented, none⟩).run disk s = (⟨0, printed text, ""⟩, s) := by
  rw [produce] at hproduce
  rw [invocation_run h, deliver, hproduce]
  rfl

/-- With a file the text is written once it is complete. -/
theorem run_write (h : disk.Lawful files) {s : σ} {text : String}
    (hproduce : subject.produce format indented (files s) = .ok text) (path : String) :
    (subject.invocation ⟨format, indented, some path⟩).run disk s =
      (subject.wrote path (disk.write path (printed text) s).1,
        (disk.write path (printed text) s).2) := by
  rw [produce] at hproduce
  rw [invocation_run h, deliver, render_file, hproduce]
  simp only [bind, StateT.bind, filed_eq_printed]
  rcases disk.write path (printed text) s with ⟨_ | _, s'⟩ <;> rfl

/-- A run that fails prints nothing and changes nothing. -/
theorem run_failed (h : disk.Lawful files) {file : Option String} {s : σ}
    (hcode : ((subject.invocation ⟨format, indented, file⟩).run disk s).1.code ≠ 0) :
    ((subject.invocation ⟨format, indented, file⟩).run disk s).1.stdout = "" ∧
      ((subject.invocation ⟨format, indented, file⟩).run disk s).2 = s := by
  cases hproduce : subject.produce format indented (files s) with
  | error fault =>
    rw [run_of_error h hproduce]
    exact ⟨fault.outcome_fails.2, rfl⟩
  | ok text =>
    cases file with
    | none =>
      rw [run_print h hproduce] at hcode
      exact absurd rfl hcode
    | some path =>
      rw [run_write h hproduce] at hcode ⊢
      cases hwrite : disk.write path (printed text) s with
      | mk result s' =>
        rw [hwrite] at hcode
        cases result with
        | ok => exact absurd rfl hcode
        | error fault =>
          exact ⟨(RunFault.unwritten path fault).outcome_fails.2,
            h.write_error path (printed text) s fault s' hwrite⟩

end

end Subject

/-! ### Files -/

namespace Files

variable {files : Files} {path text : String} {location : Location}

theorem write_of_target (h : files.target path = .ok location) :
    disk.write path text files = (.ok (), files.set location text.toUTF8) := by
  have hput : files.put path text.toUTF8 = .ok (files.set location text.toUTF8) := by
    rw [put, h]
    rfl
  exact write_of_put hput

theorem write_of_target_error {fault : FileFault} (h : files.target path = .error fault) :
    disk.write path text files = (.error fault, files) := by
  have hput : files.put path text.toUTF8 = .error fault := by
    rw [put, h]
    rfl
  simp only [disk, hput]

end Files

/-- A text that is there is written if the path leads to a place for it, and is found there. -/
theorem Subject.run_write_files {subject : Subject} {format : Format} {indented : Bool}
    {files : Files} {text : String} (hproduce : subject.produce format indented files = .ok text)
    (path : String) : ∃ (writing : Outcome) (files' : Files),
      (subject.invocation ⟨format, indented, some path⟩).run Files.disk files =
        (writing, files') ∧
      writing.stdout = "" ∧ (writing.code ≠ 0 → files' = files) ∧
      (writing.code = 0 ↔ ∃ location, files.target path = .ok location) ∧
      ∀ location, files.target path = .ok location →
        files'.get path = .ok (printed text).toUTF8 ∧
        ∀ other, files'.lookup other =
          if other = location then some (printed text).toUTF8 else files.lookup other := by
  refine ⟨_, _, run_write Files.disk_lawful hproduce path, wrote_stdout subject path _, ?_⟩
  cases htarget : files.target path with
  | error fault =>
    rw [Files.write_of_target_error htarget]
    obtain ⟨hcode, -⟩ := (RunFault.unwritten path fault).outcome_fails
    refine ⟨fun _ => rfl, ⟨fun h => absurd h hcode, ?_⟩, ?_⟩
    · rintro ⟨location, hlocation⟩
      cases hlocation
    · intro location hlocation
      cases hlocation
  | ok location =>
    rw [Files.write_of_target htarget]
    refine ⟨fun h => absurd rfl h, ⟨fun _ => ⟨location, rfl⟩, fun _ => rfl⟩, ?_⟩
    intro location' hlocation
    cases hlocation
    exact ⟨Files.get_set htarget, fun other => Files.lookup_set files location other _⟩

/-! ### Machines -/

namespace Machine

/-- The file, if there is one, is neither a device nor where only the system makes files. -/
def Plain (m : Machine) (file : Option String) : Prop :=
  ∀ path ∈ file, ∀ location, m.files.target path = .ok location →
    Device.all.lookup location = none ∧ isReserved location = false

variable {m m' : Machine} {path text : String}

/-- Writing to a file that is no device is writing to the files. -/
theorem write_of_plain (h : m.Plain (some path)) :
    disk.write path text m =
      ((Files.disk.write path text m.files).1,
        { m with files := (Files.disk.write path text m.files).2 }) := by
  simp only [disk, write, Files.disk, Files.put]
  cases htarget : m.files.target path with
  | error fault => rfl
  | ok location =>
    obtain ⟨hdevice, hreserved⟩ := h path rfl location htarget
    simp [hdevice, hreserved, bind, Except.bind]
    rfl

theorem feed_files {device : Device} (h : m.feed text device = .ok m') : m'.files = m.files := by
  cases device <;> cases h <;> rfl

/-- Writing elsewhere, to a device or in vain, changes no file. -/
theorem write_of_not_plain (h : ¬ m.Plain (some path)) :
    (disk.write path text m).2.files = m.files := by
  simp only [Plain, Option.mem_some_iff, forall_eq', not_forall] at h
  obtain ⟨location, htarget, hlocation⟩ := h
  have hwrite : ∀ m', m.write path text = .ok m' → m'.files = m.files := by
    intro m' hm'
    simp only [write, htarget, bind, Except.bind] at hm'
    cases hdevice : Device.all.lookup location with
    | some device =>
      rw [hdevice] at hm'
      exact feed_files hm'
    | none =>
      have hreserved : isReserved location = true := by simpa [hdevice] using hlocation
      simp only [hdevice, hreserved, if_true] at hm'
      cases hm'
  simp only [disk]
  split
  next hm' => exact hwrite _ hm'
  next => rfl

theorem run_eq {args : List String} {invocation : Invocation}
    (h : Invocation.ofArguments? args = some invocation) (m : Machine) :
    m.run args =
      ({ (invocation.run disk m).1 with
          stdout := (invocation.run disk m).2.stdout ++ (invocation.run disk m).1.stdout
          stderr := (invocation.run disk m).2.stderr ++ (invocation.run disk m).1.stderr },
        (invocation.run disk m).2) := by
  simp only [run, CommandLine.run, h]
  rfl

/-- Unless it writes to a device, a run does to a machine what it does to its files. -/
theorem run_of_plain {file : Option String} (h : m.Plain file) (subject : Subject)
    (format : Format) (indented : Bool) :
    (subject.invocation ⟨format, indented, file⟩).run disk m =
      (((subject.invocation ⟨format, indented, file⟩).run Files.disk m.files).1, { m with
        files := ((subject.invocation ⟨format, indented, file⟩).run Files.disk m.files).2 }) := by
  cases hproduce : subject.produce format indented m.files with
  | error fault =>
    rw [Subject.run_of_error disk_lawful hproduce,
      Subject.run_of_error Files.disk_lawful hproduce]
  | ok text =>
    cases file with
    | none =>
      rw [Subject.run_print disk_lawful hproduce, Subject.run_print Files.disk_lawful hproduce]
    | some path =>
      rw [Subject.run_write disk_lawful hproduce, Subject.run_write Files.disk_lawful hproduce,
        write_of_plain h]

theorem run_of_not_plain {file : Option String} (h : ¬ m.Plain file) (subject : Subject)
    (format : Format) (indented : Bool) :
    ((subject.invocation ⟨format, indented, file⟩).run disk m).2.files = m.files := by
  cases hproduce : subject.produce format indented m.files with
  | error fault => rw [Subject.run_of_error disk_lawful hproduce]
  | ok text =>
    cases file with
    | none => exact absurd (fun path hpath => by cases hpath) h
    | some path =>
      rw [Subject.run_write disk_lawful hproduce]
      exact write_of_not_plain h

/-- On a machine, too, a run that fails prints nothing and changes nothing. -/
theorem run_on_files {subject : Subject} {format : Format} {indented : Bool} {args : List String}
    {file : Option String}
    (hargs : Invocation.ofArguments? args = some (subject.invocation ⟨format, indented, file⟩)) :
    ((m.run args).1.code ≠ 0 → (m.run args).1.stdout = m.stdout ∧ (m.run args).2 = m) ∧
      (m.Plain file → ∀ o files',
        (subject.invocation ⟨format, indented, file⟩).run Files.disk m.files = (o, files') →
        (m.run args).1.code = o.code ∧ (m.run args).1.stdout = m.stdout ++ o.stdout ∧
          (m.run args).2 = { m with files := files' }) ∧
      (¬ m.Plain file → (m.run args).2.files = m.files) := by
  rw [run_eq hargs]
  refine ⟨fun hcode => ?_, fun hplain o files' hrun => ?_, fun hplain =>
    run_of_not_plain hplain subject format indented⟩
  · obtain ⟨hstdout, hsame⟩ := Subject.run_failed disk_lawful hcode
    exact ⟨by rw [hstdout, hsame, String.append_empty], hsame⟩
  · rw [run_of_plain hplain, hrun]
    exact ⟨rfl, rfl, rfl⟩

end Machine

/-- Files are changed by a run only if it succeeds, and then only the one that it was asked to
write. Without a file to write, a run prints the circuit in the form that was asked for, with a line
end, or fails if there is none; in both cases all files stay. With a file it prints nothing. If it
fails, all files stay; it succeeds when the run that prints does and the file can be written, and
then the file has the very bytes that would have been printed, and all others are as they were. A
machine with devices runs alike, but for what is written to a device, and that leaves the files
alone. -/
theorem run_effect (subject : Subject) (format : Format) (indented : Bool) (files : Files) :
    ∃ printing : Outcome,
      (subject.invocation ⟨format, indented, none⟩).run Files.disk files = (printing, files) ∧
      (printing.code = 0 → ∃ c text, subject.Gives files c ∧ format.Renders indented c text ∧
        LineEnded text printing.stdout) ∧
      (printing.code ≠ 0 → printing.stdout = "" ∧
        ¬ ∃ c text, subject.Gives files c ∧ format.Renders indented c text) ∧
      (∀ path, ∃ (writing : Outcome) (files' : Files),
        (subject.invocation ⟨format, indented, some path⟩).run Files.disk files =
          (writing, files') ∧
        writing.stdout = "" ∧ (writing.code ≠ 0 → files' = files) ∧
        (writing.code = 0 ↔ printing.code = 0 ∧ ∃ location, files.target path = .ok location) ∧
        ∀ location, files.target path = .ok location → printing.code = 0 →
          files'.get path = .ok printing.stdout.toUTF8 ∧
          ∀ other, files'.lookup other =
            if other = location then some printing.stdout.toUTF8 else files.lookup other) ∧
      ∀ (m : Machine) (args : List String) (file : Option String), m.files = files →
        Invocation.ofArguments? args = some (subject.invocation ⟨format, indented, file⟩) →
        ((m.run args).1.code ≠ 0 → (m.run args).1.stdout = m.stdout ∧ (m.run args).2 = m) ∧
        (m.Plain file → ∀ o files',
          (subject.invocation ⟨format, indented, file⟩).run Files.disk files = (o, files') →
          (m.run args).1.code = o.code ∧ (m.run args).1.stdout = m.stdout ++ o.stdout ∧
            (m.run args).2 = { m with files := files' }) ∧
        (¬ m.Plain file → (m.run args).2.files = files) := by
  have hmachine : ∀ (m : Machine) (args : List String) (file : Option String), m.files = files →
      Invocation.ofArguments? args = some (subject.invocation ⟨format, indented, file⟩) → _ :=
    fun m args file hfiles hargs => hfiles ▸ m.run_on_files hargs
  cases hproduce : subject.produce format indented files with
  | error fault =>
    obtain ⟨hcode, hstdout⟩ := fault.outcome_fails
    have hrun := Subject.run_of_error Files.disk_lawful hproduce
    refine ⟨fault.outcome, hrun none, fun h => absurd h hcode, fun _ => ⟨hstdout, ?_⟩,
      fun path => ⟨fault.outcome, files, hrun (some path), hstdout, fun _ => rfl, ?_, ?_⟩, hmachine⟩
    · rintro ⟨c, text, hgives, hrenders⟩
      have htext := Subject.produce_eq_ok_iff.2 ⟨c, hgives, hrenders⟩
      rw [hproduce] at htext
      cases htext
    · exact ⟨fun h => absurd h hcode, fun h => absurd h.1 hcode⟩
    · exact fun location _ h => absurd h hcode
  | ok text =>
    obtain ⟨c, hgives, hrenders⟩ := Subject.produce_eq_ok_iff.1 hproduce
    refine ⟨_, Subject.run_print Files.disk_lawful hproduce,
      fun _ => ⟨c, text, hgives, hrenders, lineEnded_iff.2 rfl⟩, fun h => absurd rfl h,
      fun path => ?_, hmachine⟩
    obtain ⟨writing, files', hrun, hstdout, hfailed, hsucceeds, hset⟩ :=
      Subject.run_write_files hproduce path
    exact ⟨writing, files', hrun, hstdout, hfailed,
      hsucceeds.trans ⟨fun h => ⟨rfl, h⟩, fun h => h.2⟩, fun location htarget _ =>
        hset location htarget⟩

/-- A machine with one file of its own, which holds a text. -/
def Machine.holding (text : String) : Machine := .ofFiles [(locationInside "a", text.toUTF8)]

theorem Machine.readText_holding (text : String) :
    (holding text).files.readText "a" = .ok text := by
  have hget : (holding text).files.get "a" = .ok text.toUTF8 := rfl
  have htext : String.fromUTF8? text.toUTF8 = some text := dif_pos text.isValidUTF8
  simp only [Files.readText, hget, bind, Except.bind, htext]
  rfl

theorem Machine.target_holding (text : String) :
    (holding text).files.target "a" = .ok (locationInside "a") := rfl

/-- A document is converted in place. -/
theorem run_effect_inPlace :
    ∃ c, Circuit.ofText ((Document.nested 0).json.text false) = .ok c ∧
      let run := (Machine.holding ((Document.nested 0).json.text false)).run
        ["convert", "-i", "a", "--pretty", "-o", "a"]
      run.1.code = 0 ∧ run.1.stdout = "" ∧
        run.2.files.get "a" = .ok (c.text true ++ "\n").toUTF8 := by
  obtain ⟨c, hc, -, -⟩ :=
    Document.exists_ofText (d := .nested 0) (by decide +kernel) (by decide +kernel)
  generalize (Document.nested 0).json.text false = text at hc ⊢
  have hread := Machine.readText_holding text
  have htarget := Machine.target_holding text
  have hargs : Invocation.ofArguments? ["convert", "-i", "a", "--pretty", "-o", "a"] =
      some ((Subject.document "a").invocation ⟨.json, true, some "a"⟩) := rfl
  have hplain : (Machine.holding text).Plain (some "a") := by
    intro path hpath location hlocation
    cases hpath
    cases htarget.symm.trans hlocation
    decide
  obtain ⟨printing, -, hprints, hfails, hwrites, hmachine⟩ :=
    run_effect (.document "a") .json true (Machine.holding text).files
  have hcode : printing.code = 0 := by
    by_contra hcode
    exact (hfails hcode).2 ⟨c, _, ⟨text, hread, hc⟩, rfl⟩
  obtain ⟨d, _, ⟨text', hread', hd⟩, rfl, hended⟩ := hprints hcode
  cases hread.symm.trans hread'
  cases hc.symm.trans hd
  rw [lineEnded_iff, printed_text] at hended
  obtain ⟨writing, files', hrun, hstdout, -, hsucceeds, hset⟩ := hwrites "a"
  obtain ⟨hget, -⟩ := hset _ htarget hcode
  obtain ⟨hcode', hstdout', hfiles⟩ := (hmachine _ _ _ rfl hargs).2.1 hplain writing files' hrun
  refine ⟨c, hc, ?_, ?_, ?_⟩
  · exact hcode'.trans (hsucceeds.2 ⟨hcode, _, htarget⟩)
  · rw [hstdout', hstdout]
    rfl
  · rw [hfiles, ← hended]
    exact hget

end QuantumCircuit.CommandLine
