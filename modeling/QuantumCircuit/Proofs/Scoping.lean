import QuantumCircuit.Proofs.Emission
import QuantumCircuit.Proofs.Meaning
import QuantumCircuit.Proofs.Sentences

/-! Every operand of a program is declared. The registers of a program are found from the units of
the circuit, and the operands come from its commands, also from those that stood in boxes. They
belong together because the commands that inlining leaves still fit the circuit; the emitter
itself does not look. Nor does it look at names: the declarations can be found in the text where
names are words, while other names can make a text declare what the circuit does not. -/

namespace QuantumCircuit

namespace Qasm

/-! ### Programs -/

/-- A program, the circuit it was made for and the commands that inlining left. -/
structure Translates (c : Circuit) (commands : List Command) (p : Program) : Prop where
  qubits : Declares (c.qubits.map Qubit.id) p.qubits
  bits : Declares (c.bits.map Bit.id) p.bits
  names_ne : ∀ r ∈ p.bits, ∀ q ∈ p.qubits, q.name ≠ r.name
  fits : ∀ command ∈ commands, command.Fits c.qubits c.bits
  statements : List.Forall₂ (fun command s => statementOf p.bits command = .ok s) commands
    p.statements

/-- An emitted text is that of a program. -/
theorem exists_program {c : Circuit} (h : c.Valid) {text : String} (htext : emit c = .ok text) :
    ∃ p n c', program c = .ok p ∧ p.text = text ∧ Build.inline.run c = .ok n c' ∧
      Translates c c'.commands p := by
  obtain ⟨hp, commands, p, hflat, hprogram, rfl⟩ := emit_eq_ok_iff.1 htext
  obtain ⟨hqubits, hbits, hnames, hstatements⟩ := programOf_eq_ok_iff.1 hprogram
  have hrun := Build.inline_run c
  rw [hflat] at hrun
  refine ⟨p, _, _, ?_, rfl, hrun, .of_registersOf hqubits, .of_registersOf hbits, hnames,
    fun command hm => (h.inlined_fits commands hflat command hm).1, hstatements⟩
  simp [program, Circuit.hasIdentityPermutation, hp, hflat, hprogram]

/-! ### Operands -/

/-- All operands are declared. -/
def Action.Scoped (p : Program) : Action → Prop
  | .gate _ qubits => ∀ q ∈ qubits, ∃ r ∈ p.qubits, q.id.LiesIn r
  | .measure qubits target =>
    (∀ q ∈ qubits, ∃ r ∈ p.qubits, q.id.LiesIn r) ∧ ∃ r ∈ p.bits, target.id.LiesIn r
  | .reset qubits => ∀ q ∈ qubits, ∃ r ∈ p.qubits, q.id.LiesIn r

def Guard.Scoped (p : Program) : Guard → Prop
  | .bit b _ => ∃ r ∈ p.bits, b.id.LiesIn r
  | .register name _ => ∃ r ∈ p.bits, r.name = name

structure Statement.Scoped (p : Program) (s : Statement) : Prop where
  guard : ∀ g ∈ s.guard, g.Scoped p
  action : s.action.Scoped p

namespace Translates

variable {c : Circuit} {commands : List Command} {p : Program} {command : Command}

theorem qubit_liesIn (h : Translates c commands p) (hm : command ∈ commands) :
    ∀ q ∈ command.qubits, ∃ r ∈ p.qubits, q.id.LiesIn r := fun q hq =>
  h.qubits.lies_in q.id (List.mem_map_of_mem ((h.fits command hm).qubits_declared q hq))

theorem bit_liesIn (h : Translates c commands p) (hm : command ∈ commands) :
    ∀ b ∈ command.allBits, ∃ r ∈ p.bits, b.id.LiesIn r := fun b hb =>
  h.bits.lies_in b.id (List.mem_map_of_mem ((h.fits command hm).bits_declared b hb))

theorem statement_scoped (h : Translates c commands p) {s : Statement} (hs : s ∈ p.statements) :
    s.Scoped p := by
  obtain ⟨command, hm, hstatement⟩ := exists_of_mem_right h.statements hs
  obtain ⟨haction, hguard⟩ := statementOf_eq_ok_iff.1 hstatement
  have hqubits := h.qubit_liesIn hm
  have hbits := h.bit_liesIn hm
  constructor
  · intro g hg
    rw [Option.mem_def] at hg
    rw [hg] at hguard
    cases hcondition : command.condition with
    | none => rw [hcondition] at hguard; cases hguard
    | some condition =>
      rw [hcondition] at hguard
      obtain hguard := Option.rel_some_some.1 hguard
      have hread : ∀ b ∈ condition.bits, ∃ r ∈ p.bits, b.id.LiesIn r := fun b hb =>
        hbits b (by simp [Command.allBits, Command.conditionBits, hcondition, hb])
      rcases guardOf_cases hguard with ⟨b, hb, rfl⟩ | ⟨name, -, ⟨b, hb, rfl⟩, rfl⟩
      · exact hread b (hb ▸ List.mem_cons_self)
      · obtain ⟨r, hr, i, hi, -⟩ := hread b hb
        exact ⟨r, hr, by rw [hi]⟩
  · rcases actionOf_cases (h.fits command hm) haction with ⟨type, name, -, -, -, ha⟩ |
      ⟨target, -, hwritten, ha⟩ | ⟨-, -, ha⟩
    · rw [ha]
      exact hqubits
    · rw [ha]
      refine ⟨hqubits, hbits target (List.mem_append_right _ ?_)⟩
      rw [hwritten]
      exact List.mem_cons_self
    · rw [ha]
      exact hqubits

theorem names_nodup (h : Translates c commands p) :
    ((p.qubits ++ p.bits).map Register.name).Nodup := by
  rw [List.map_append]
  refine h.qubits.names_nodup.append h.bits.names_nodup fun name hq hb => ?_
  obtain ⟨q, hmem, rfl⟩ := List.mem_map.1 hq
  obtain ⟨r, hr, hname⟩ := List.mem_map.1 hb
  exact h.names_ne r hr q hmem hname.symm

theorem mem_names_iff (h : Translates c commands p) (name : String) :
    name ∈ (p.qubits ++ p.bits).map Register.name ↔ ∃ u ∈ c.units, u.register = name := by
  rw [List.map_append, List.mem_append, h.qubits.mem_names_iff, h.bits.mem_names_iff]
  simp only [Circuit.units, List.mem_append, or_and_right, exists_or]

theorem size_pos (h : Translates c commands p) : ∀ r ∈ p.qubits ++ p.bits, 1 ≤ r.size := by
  intro r hr
  rcases List.mem_append.1 hr with hr | hr
  · exact h.qubits.size_pos hr
  · exact h.bits.size_pos hr

end Translates

/-! ### Declarations in the text -/

/-- The text declares the unit: its register once, as one of that kind and as larger than the
index. -/
def DeclaredIn (text kind : String) (u : UnitId) : Prop :=
  ∃ size i, DeclaredOnce text kind size u.register ∧ u.index = [i] ∧ i.toNat < size

/-- A text declares each register name of the circuit once, for qubits or for bits and with at
least one unit, and no other name. Whatever the commands operate on, measure to or read in their
conditions is declared. -/
structure ScopedText (c : Circuit) (commands : List Command) (text : String) : Prop where
  once : ∀ u ∈ c.units, ∃ kind ∈ ["qubit", "bit"], ∃ size ≥ 1,
    DeclaredOnce text kind size u.register
  others : ∀ name, ∀ s ∈ sentences text, IsDeclarationOf name s → ∃ u ∈ c.units, u.register = name
  qubits : ∀ command ∈ commands, ∀ q ∈ command.qubits, DeclaredIn text "qubit" q.id
  bits : ∀ command ∈ commands, ∀ b ∈ command.allBits, DeclaredIn text "bit" b.id

theorem Program.map_registers (p : Program) : p.registers.map Prod.snd = p.qubits ++ p.bits := by
  simp [Program.registers, Function.comp_def]

theorem Program.map_name_registers (p : Program) :
    (p.registers.map fun d => d.2.name) = (p.qubits ++ p.bits).map Register.name := by
  rw [← p.map_registers, List.map_map]
  rfl

namespace Translates

variable {c : Circuit} {commands : List Command} {p : Program}

theorem simple (h : Translates c commands p) (hn : c.WordNamed) : p.Simple :=
  hn.simple h.fits h.qubits h.bits h.statements

/-- No other program has that text. -/
theorem only_program (h : Translates c commands p) (hn : c.WordNamed) (p' : Program) :
    p'.Simple ∧ p'.text = p.text ↔ p' = p := by
  constructor
  · rintro ⟨hp', htext⟩
    exact hp'.text_inj (h.simple hn) htext
  · rintro rfl
    exact ⟨h.simple hn, rfl⟩

theorem declaredOnce (h : Translates c commands p) (hn : c.WordNamed) {d : String × Register}
    (hd : d ∈ p.registers) : DeclaredOnce p.text d.1 d.2.size.toNat d.2.name :=
  (h.simple hn).declaredOnce (p.map_name_registers ▸ h.names_nodup) hd

theorem declaredIn (h : Translates c commands p) (hn : c.WordNamed) {d : String × Register}
    (hd : d ∈ p.registers) {u : UnitId} (hu : u.LiesIn d.2) : DeclaredIn p.text d.1 u := by
  obtain ⟨i, rfl, hi⟩ := hu
  exact ⟨_, i, h.declaredOnce hn hd, rfl, UInt32.lt_iff_toNat_lt.1 hi⟩

theorem scopedText (h : Translates c commands p) (hn : c.WordNamed) :
    ScopedText c commands p.text where
  once u hu := by
    obtain ⟨r, hr, hname⟩ := List.mem_map.1 ((h.mem_names_iff u.register).2 ⟨u, hu, rfl⟩)
    obtain ⟨d, hd, rfl⟩ := List.mem_map.1 (p.map_registers.symm ▸ hr)
    have honce := h.declaredOnce hn hd
    rw [hname] at honce
    exact ⟨d.1, p.kind_of_mem_registers hd, d.2.size.toNat,
      UInt32.le_iff_toNat_le.1 (h.size_pos d.2 hr), honce⟩
  others name s hs hdeclares := by
    rw [(h.simple hn).sentences_eq] at hs
    obtain ⟨d, hd, rfl, -⟩ :=
      (h.simple hn).exists_of_isDeclaration (List.Subset.refl _) hs hdeclares
    rw [← h.mem_names_iff, ← p.map_name_registers]
    exact List.mem_map_of_mem hd
  qubits command hm q hq := by
    obtain ⟨r, hr, hlies⟩ := h.qubit_liesIn hm q hq
    have hd : ("qubit", r) ∈ p.registers := p.mem_registers_iff.2 (.inl ⟨rfl, hr⟩)
    exact h.declaredIn hn hd hlies
  bits command hm b hb := by
    obtain ⟨r, hr, hlies⟩ := h.bit_liesIn hm b hb
    have hd : ("bit", r) ∈ p.registers := p.mem_registers_iff.2 (.inr ⟨rfl, hr⟩)
    exact h.declaredIn hn hd hlies

end Translates

end Qasm

open Qasm

/-- In an emitted program each register name of the circuit, and no other, is declared, once, for
qubits or for bits, with at least one unit. Whatever the commands operate on, measure to or
read in their conditions lies in a declared register, and so does what the statements name.
Where the names are words the text itself shows this. -/
theorem Reachable.emit_scoped {c : Circuit} (h : Reachable c) {text : String}
    (htext : emit c = .ok text) :
    ∃ p n c', program c = .ok p ∧ p.text = text ∧ Build.inline.run c = .ok n c' ∧
      ((p.qubits ++ p.bits).map Register.name).Nodup ∧
      (∀ name, name ∈ (p.qubits ++ p.bits).map Register.name ↔ ∃ u ∈ c.units, u.register = name) ∧
      (∀ r ∈ p.qubits ++ p.bits, 1 ≤ r.size) ∧
      (∀ command ∈ c'.commands, (∀ q ∈ command.qubits, ∃ r ∈ p.qubits, q.id.LiesIn r) ∧
        ∀ b ∈ command.allBits, ∃ r ∈ p.bits, b.id.LiesIn r) ∧
      (∀ s ∈ p.statements, s.Scoped p) ∧
      (c.WordNamed → ScopedText c c'.commands text ∧
        ∀ p' : Program, p'.Simple ∧ p'.text = text ↔ p' = p) := by
  obtain ⟨p, n, c', hprogram, rfl, hrun, ht⟩ := exists_program h.valid htext
  refine ⟨p, n, c', hprogram, rfl, hrun, ht.names_nodup, ht.mem_names_iff, ht.size_pos,
    fun command hm => ⟨ht.qubit_liesIn hm, ht.bit_liesIn hm⟩, fun s hs => ht.statement_scoped hs,
    fun hn => ⟨ht.scopedText hn, ht.only_program hn⟩⟩

/-- A readout in a box, to the last of four bits and if the first is set. The two in the middle
are not declared. -/
def Circuit.sparseReadout : Circuit :=
  (Call.add ⟨.box ⟨0⟩ .readout, [.ofIndex 0], [.ofIndex 3], some (.ifBit (.ofIndex 0)),
    none⟩).leaves
    ((Call.declareBit (.ofIndex 0)).leaves
      ((Call.declareBit (.ofIndex 3)).leaves (.withQubits 1)))

theorem Reachable.sparseReadout : Reachable .sparseReadout := by
  refine .call _ (.call _ (.call _ (.withQubits 1) ?_) ?_) ?_
  · intro body hb; cases hb
  · intro body hb; cases hb
  · intro body hb
    cases hb
    exact .call _ (.call _ (.withQubits 1) fun body hb => by cases hb) fun body hb => by cases hb

/-- The program of the sparse readout. -/
def Qasm.sparseReadout : Program :=
  ⟨[⟨"q", 1⟩], [⟨"c", 4⟩],
    [⟨some (.bit (.ofIndex 0) 1), .measure [.ofIndex 0] (.ofIndex 3)⟩]⟩

theorem Circuit.sparseReadout_wordNamed : Circuit.sparseReadout.WordNamed := by
  have hq : ∀ q ∈ [Qubit.ofIndex 0], IsWord q.id.register := by decide
  have hb : ∀ b ∈ [Bit.ofIndex 3, .ofIndex 0], IsWord b.id.register := by decide
  exact ⟨hq, hb⟩

theorem Reachable.emit_scoped_sparseReadout :
    emit .sparseReadout = .ok Qasm.sparseReadout.text ∧
    ∃ p n c', program .sparseReadout = .ok p ∧ p.text = Qasm.sparseReadout.text ∧
      Build.inline.run .sparseReadout = .ok n c' ∧
      ((p.qubits ++ p.bits).map Register.name).Nodup ∧
      (∀ name, name ∈ (p.qubits ++ p.bits).map Register.name ↔
        ∃ u ∈ Circuit.sparseReadout.units, u.register = name) ∧
      (∀ r ∈ p.qubits ++ p.bits, 1 ≤ r.size) ∧
      (∀ command ∈ c'.commands, (∀ q ∈ command.qubits, ∃ r ∈ p.qubits, q.id.LiesIn r) ∧
        ∀ b ∈ command.allBits, ∃ r ∈ p.bits, b.id.LiesIn r) ∧
      (∀ s ∈ p.statements, s.Scoped p) ∧
      ScopedText .sparseReadout c'.commands Qasm.sparseReadout.text ∧
      ∀ p' : Program, p'.Simple ∧ p'.text = Qasm.sparseReadout.text ↔ p' = p := by
  have htext : emit .sparseReadout = .ok Qasm.sparseReadout.text := emit_of_program rfl
  obtain ⟨p, n, c', hp, hptext, hrun, hnames, hunits, hsizes, hcommands, hstatements, hwords⟩ :=
    Reachable.sparseReadout.emit_scoped htext
  exact ⟨htext, p, n, c', hp, hptext, hrun, hnames, hunits, hsizes, hcommands, hstatements,
    hwords Circuit.sparseReadout_wordNamed⟩

/-- A register whose name ends its own declaration and begins another one, and a register of the
name that this one declares. -/
def Circuit.brokenName : Circuit :=
  (Call.declareBitRegister "d" 1).leaves
    ((Call.declareBitRegister "c;\nbit[5] d" 1).leaves (.withQubits 1))

theorem Reachable.brokenName : Reachable .brokenName := by
  refine .call _ (.call _ (.withQubits 1) ?_) ?_
  · intro body hb; cases hb
  · intro body hb; cases hb

/-- The program of the broken name. -/
def Qasm.brokenName : Program := ⟨[⟨"q", 1⟩], [⟨"c;\nbit[5] d", 1⟩, ⟨"d", 1⟩], []⟩

/-- Where names are not words, a text can declare a register twice. -/
theorem Reachable.declared_twice :
    Reachable .brokenName ∧ emit .brokenName = .ok Qasm.brokenName.text ∧
      Qasm.brokenName.text = "OPENQASM 3.0;\ninclude \"stdgates.inc\";\n\n"
        ++ "qubit[1] q;\nbit[1] c;\nbit[5] d;\nbit[1] d;\n\n" ∧
      (∃ u ∈ Circuit.brokenName.units, u.register = "d") ∧
      ¬ ∃ kind size, DeclaredOnce Qasm.brokenName.text kind size "d" := by
  have htext : emit .brokenName = .ok Qasm.brokenName.text := emit_of_program rfl
  refine ⟨.brokenName, htext, by decide +kernel, ⟨⟨"d", [0]⟩, by decide, rfl⟩, ?_⟩
  rintro ⟨kind, size, hone⟩
  have hfive : declared "bit" 5 "d" ∈ sentences Qasm.brokenName.text := by decide +kernel
  have hfirst : declared "bit" 1 "d" ∈ sentences Qasm.brokenName.text := by decide +kernel
  have h := (hone.eq_of_isDeclaration hfive ⟨by decide, "bit", by decide, 5, rfl⟩).trans
    (hone.eq_of_isDeclaration hfirst ⟨by decide, "bit", by decide, 1, rfl⟩).symm
  exact absurd h (by decide +kernel)

end QuantumCircuit
