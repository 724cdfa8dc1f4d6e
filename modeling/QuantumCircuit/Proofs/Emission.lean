import QuantumCircuit.Proofs.Invariant
import QuantumCircuit.Proofs.ProgramText
import QuantumCircuit.Proofs.Registers

/-! What emission makes of a circuit, and what of the circuit can be told from its program. A
program has the registers of the declared units and one statement for every command that
inlining leaves. A command can be told from its statement but for its group: a gate by its
name, the bits of a guard by the size of the register where only the register is named. -/

namespace QuantumCircuit.Qasm

/-! ### Programs -/

theorem statementOf_eq_ok_iff {registers : List Register} {command : Command} {s : Statement} :
    statementOf registers command = .ok s ↔ actionOf command = .ok s.action ∧
      Option.Rel (fun condition guard => guardOf registers condition = .ok guard)
        command.condition s.guard := by
  obtain ⟨guard, action⟩ := s
  rw [statementOf, bind_eq_ok_iff]
  cases command.condition with
  | none =>
    constructor
    · rintro ⟨a, ha, h⟩
      cases h
      exact ⟨ha, .none⟩
    · rintro ⟨ha, h⟩
      cases h
      exact ⟨action, ha, rfl⟩
  | some condition =>
    constructor
    · rintro ⟨a, ha, h⟩
      obtain ⟨g, hg, h⟩ := bind_eq_ok_iff.1 h
      cases h
      exact ⟨ha, .some hg⟩
    · rintro ⟨ha, h⟩
      cases h with
      | some hg => exact ⟨action, ha, bind_eq_ok_iff.2 ⟨_, hg, rfl⟩⟩

theorem programOf_eq_ok_iff {c : Circuit} {commands : List Command} {p : Program} :
    programOf c commands = .ok p ↔
      registersOf (c.qubits.map Qubit.id) = .ok p.qubits ∧
      registersOf (c.bits.map Bit.id) = .ok p.bits ∧
      (∀ r ∈ p.bits, ∀ q ∈ p.qubits, q.name ≠ r.name) ∧
      List.Forall₂ (fun command s => statementOf p.bits command = .ok s) commands p.statements := by
  have hfind : ∀ qubits bits : List Register,
      (bits.find? fun r => qubits.any fun q => q.name == r.name) = none ↔
        ∀ r ∈ bits, ∀ q ∈ qubits, q.name ≠ r.name := by
    intro qubits bits
    simp [List.find?_eq_none]
  obtain ⟨qubits, bits, statements⟩ := p
  simp only [programOf, bind_eq_ok_iff]
  constructor
  · rintro ⟨qubits', hqubits, bits', hbits, h⟩
    split at h
    next r hr => cases h
    next hnone =>
      obtain ⟨statements', hstatements, h⟩ := bind_eq_ok_iff.1 h
      cases h
      exact ⟨hqubits, hbits, (hfind qubits bits).1 hnone, mapM_eq_ok_iff.1 hstatements⟩
  · rintro ⟨hqubits, hbits, hnames, hstatements⟩
    refine ⟨qubits, hqubits, bits, hbits, ?_⟩
    rw [(hfind qubits bits).2 hnames]
    exact bind_eq_ok_iff.2 ⟨statements, mapM_eq_ok_iff.2 hstatements, rfl⟩

theorem emit_eq_ok_iff {c : Circuit} {text : String} : emit c = .ok text ↔
    c.permutation = [] ∧ ∃ commands p, c.inlined = .ok commands ∧ programOf c commands = .ok p ∧
      p.text = text := by
  rw [emit, program, Circuit.hasIdentityPermutation]
  cases c.permutation with
  | cons => simp [Except.map]
  | nil =>
    cases c.inlined with
    | error e => simp [Except.map]
    | ok commands =>
      cases hp : programOf c commands with
      | error e => simp [Except.map, hp]
      | ok p => simp [Except.map, hp]

theorem emit_of_program {c : Circuit} {p : Program} (h : program c = .ok p) :
    emit c = .ok p.text := by
  rw [emit, h]
  rfl

/-! ### Statements and commands -/

/-- The actions of commands that fit. -/
theorem actionOf_cases {command : Command} {qubits : List Qubit} {bits : List Bit}
    (hfits : command.Fits qubits bits) {a : Action} (h : actionOf command = .ok a) :
    (∃ type name, command.op = .gate type ∧ gateName? type = some name ∧ command.bits = [] ∧
      a = .gate name command.qubits) ∨
    (∃ target, command.op = .measure ∧ command.bits = [target] ∧
      a = .measure command.qubits target) ∨
    (command.op = .reset ∧ command.bits = [] ∧ a = .reset command.qubits) := by
  have hcount := hfits.bit_count
  rw [actionOf] at h
  cases hop : command.op with
  | gate type =>
    simp only [hop] at h hcount
    cases hname : gateName? type with
    | none => simp [hname] at h
    | some name =>
      have hnone : (Operation.gate type).bitCount = 0 := by
        have all : ∀ a ∈ OpType.all, (gateName? a).isSome → (Operation.gate a).bitCount = 0 := by
          decide
        exact all type type.mem_all (by simp [hname])
      simp only [hname, Except.ok.injEq] at h
      exact .inl ⟨type, name, rfl, hname, List.eq_nil_of_length_eq_zero (hcount.trans hnone),
        h.symm⟩
  | measure =>
    simp only [hop] at h hcount
    obtain ⟨target, hbits⟩ := List.length_eq_one_iff.1 hcount
    simp only [hbits, Except.ok.injEq] at h
    exact .inr (.inl ⟨target, rfl, hbits, h.symm⟩)
  | reset =>
    simp only [hop, Except.ok.injEq] at h hcount
    exact .inr (.inr ⟨rfl, List.eq_nil_of_length_eq_zero hcount, h.symm⟩)
  | box id body => simp [hop] at h

theorem gateName?_inj {type type' : OpType} {name : String} (h : gateName? type = some name)
    (h' : gateName? type' = some name) : type = type' := by
  have all : ∀ a ∈ OpType.all, ∀ b ∈ OpType.all,
      gateName? a = gateName? b → (gateName? a).isSome → a = b := by decide
  exact all type type.mem_all type' type'.mem_all (h.trans h'.symm) (by simp [h])

/-- The operation, the qubits and the written bits of a command show in its action. -/
theorem actionOf_determines {k l : Command} {qubits qubits' : List Qubit} {bits bits' : List Bit}
    (hk : k.Fits qubits bits) (hl : l.Fits qubits' bits') {a : Action}
    (ha : actionOf k = .ok a) (ha' : actionOf l = .ok a) :
    k.op = l.op ∧ k.qubits = l.qubits ∧ k.bits = l.bits := by
  rcases actionOf_cases hk ha with ⟨type, name, hop, hname, hbits, rfl⟩ |
    ⟨target, hop, hbits, rfl⟩ | ⟨hop, hbits, rfl⟩
  · rcases actionOf_cases hl ha' with ⟨type', name', hop', hname', hbits', h⟩ | ⟨_, _, _, h⟩ |
      ⟨_, _, h⟩
    · obtain ⟨rfl, hqubits⟩ := Action.gate.inj h
      exact ⟨by rw [hop, hop', gateName?_inj hname hname'], hqubits, by rw [hbits, hbits']⟩
    · cases h
    · cases h
  · rcases actionOf_cases hl ha' with ⟨_, _, _, _, _, h⟩ | ⟨target', hop', hbits', h⟩ | ⟨_, _, h⟩
    · cases h
    · obtain ⟨hqubits, rfl⟩ := Action.measure.inj h
      exact ⟨by rw [hop, hop'], hqubits, by rw [hbits, hbits']⟩
    · cases h
  · rcases actionOf_cases hl ha' with ⟨_, _, _, _, _, h⟩ | ⟨_, _, _, h⟩ | ⟨hop', hbits', h⟩
    · cases h
    · cases h
    · exact ⟨by rw [hop, hop'], Action.reset.inj h, by rw [hbits, hbits']⟩

theorem guardOf_cases {registers : List Register} {condition : Condition} {g : Guard}
    (h : guardOf registers condition = .ok g) :
    (∃ b, condition.bits = [b] ∧ g = .bit b condition.value) ∨
    ∃ name, coversRegister registers name condition.bits ∧
      (∃ b ∈ condition.bits, b.id.register = name) ∧ g = .register name condition.value := by
  rw [guardOf] at h
  split at h
  next b hb =>
    cases h
    exact .inl ⟨b, hb, rfl⟩
  next =>
    obtain ⟨b, bs, hcons⟩ := List.exists_cons_of_ne_nil condition.bits_ne_nil
    have hb : b ∈ condition.bits := hcons ▸ List.mem_cons_self
    simp only [hcons, List.head?_cons, Option.map_some, Option.getD_some] at h
    split_ifs at h with hcovers
    cases h
    exact .inr ⟨b.id.register, hcons ▸ hcovers, ⟨b, hb, rfl⟩, rfl⟩

theorem consecutiveFrom_iff {name : String} {bits : List Bit} (k : ℕ) :
    consecutiveFrom name (UInt32.ofNat k) bits ↔
      bits = (List.range' k bits.length).map fun i => Bit.inRegister name (UInt32.ofNat i) := by
  induction bits generalizing k with
  | nil => simp [consecutiveFrom]
  | cons b bits ih =>
    have hnext : UInt32.ofNat k + 1 = UInt32.ofNat (k + 1) := by rw [UInt32.ofNat_add]; rfl
    have hbit : b.id = ⟨name, [UInt32.ofNat k]⟩ ↔ b = Bit.inRegister name (UInt32.ofNat k) :=
      ⟨bit_eq_of_id, fun h => h ▸ rfl⟩
    rw [consecutiveFrom, Bool.and_eq_true, beq_iff_eq, hbit, hnext, ih, List.length_cons,
      List.range'_succ, List.map_cons, List.cons.injEq]

theorem consecutiveFrom_zero_iff {name : String} {bits : List Bit} :
    consecutiveFrom name 0 bits ↔
      bits = (List.range bits.length).map fun i => Bit.inRegister name (UInt32.ofNat i) := by
  rw [List.range_eq_range']
  exact consecutiveFrom_iff 0

/-- Only one list of bits covers a register. -/
theorem coversRegister_eq {registers : List Register} {name : String} {bs bs' : List Bit}
    (h : coversRegister registers name bs) (h' : coversRegister registers name bs') : bs = bs' := by
  simp only [coversRegister, Bool.and_eq_true] at h h'
  have hlength : bs.length = bs'.length := by
    cases hr : registers.find? fun r => r.name == name with
    | none => simp [hr] at h
    | some r =>
      simp only [hr, beq_iff_eq] at h h'
      exact h.1.symm.trans h'.1
  rw [consecutiveFrom_zero_iff.1 h.2, consecutiveFrom_zero_iff.1 h'.2, hlength]

/-- The condition shows in the guard, when the registers are known. -/
theorem guardOf_determines {registers : List Register} {k l : Condition} {g : Guard}
    (hk : guardOf registers k = .ok g) (hl : guardOf registers l = .ok g) : k = l := by
  have hsame : k.bits = l.bits ∧ k.value = l.value := by
    rcases guardOf_cases hk with ⟨b, hb, rfl⟩ | ⟨name, hname, -, rfl⟩
    · rcases guardOf_cases hl with ⟨b', hb', h⟩ | ⟨_, _, -, h⟩
      · obtain ⟨rfl, hvalue⟩ := Guard.bit.inj h
        exact ⟨by rw [hb, hb'], hvalue⟩
      · cases h
    · rcases guardOf_cases hl with ⟨_, _, h⟩ | ⟨name', hname', -, h⟩
      · cases h
      · obtain ⟨rfl, hvalue⟩ := Guard.register.inj h
        exact ⟨coversRegister_eq hname hname', hvalue⟩
  obtain ⟨bits, value, _, _, _⟩ := k
  obtain ⟨bits', value', _, _, _⟩ := l
  obtain ⟨rfl, rfl⟩ : bits = bits' ∧ value = value' := hsame
  rfl

theorem conditions_eq {registers : List Register} {x y : Option Condition} {guard : Option Guard}
    (hx : Option.Rel (fun condition g => guardOf registers condition = .ok g) x guard)
    (hy : Option.Rel (fun condition g => guardOf registers condition = .ok g) y guard) : x = y := by
  cases hx with
  | none =>
    cases hy
    rfl
  | some hx =>
    cases hy with
    | some hy => rw [guardOf_determines hx hy]

/-! ### Simple programs -/

theorem Declares.simple {units : List UnitId} {rs : List Register} (h : Declares units rs)
    (hwords : ∀ u ∈ units, IsWord u.register) :
    (∀ u ∈ units, Simple u) ∧ ∀ r ∈ rs, IsWord r.name := by
  refine ⟨fun u hu => ⟨hwords u hu, ?_⟩, fun r hr => ?_⟩
  · obtain ⟨r, -, i, rfl, -⟩ := h.lies_in u hu
    exact ⟨i, rfl⟩
  · obtain ⟨i, hi, -⟩ := h.reached r hr
    exact hwords _ hi

section Declared

variable {command : Command} {qubits : List Qubit} {bits : List Bit}

theorem actionOf_simple (hfits : command.Fits qubits bits) (hqubits : ∀ q ∈ qubits, Simple q.id)
    (hbits : ∀ b ∈ bits, Simple b.id) {a : Action} (h : actionOf command = .ok a) : a.Simple := by
  have hq : ∀ q ∈ command.qubits, Simple q.id := fun q hq => hqubits q (hfits.qubits_declared q hq)
  rcases actionOf_cases hfits h with ⟨type, name, -, hname, -, rfl⟩ | ⟨target, -, hwritten, rfl⟩ |
    ⟨-, -, rfl⟩
  · exact ⟨⟨type, hname⟩, hq⟩
  · exact ⟨hq, hbits target (hfits.written_declared target (hwritten ▸ List.mem_cons_self))⟩
  · exact hq

theorem guardOf_simple {registers : List Register} {condition : Condition}
    (hbits : ∀ b ∈ condition.bits, Simple b.id) {g : Guard}
    (h : guardOf registers condition = .ok g) : g.Simple := by
  rcases guardOf_cases h with ⟨b, hb, rfl⟩ | ⟨name, -, ⟨b, hb, rfl⟩, rfl⟩
  · exact hbits b (hb ▸ List.mem_cons_self)
  · exact (hbits b hb).1

theorem statementOf_simple {registers : List Register} (hfits : command.Fits qubits bits)
    (hqubits : ∀ q ∈ qubits, Simple q.id) (hbits : ∀ b ∈ bits, Simple b.id) {s : Statement}
    (h : statementOf registers command = .ok s) : s.Simple := by
  obtain ⟨haction, hrel⟩ := statementOf_eq_ok_iff.1 h
  refine ⟨fun g hg => ?_, actionOf_simple hfits hqubits hbits haction⟩
  rw [show s.guard = some g from hg] at hrel
  cases hcondition : command.condition with
  | none =>
    rw [hcondition] at hrel
    cases hrel
  | some condition =>
    rw [hcondition] at hrel
    cases hrel with
    | some hguard =>
      refine guardOf_simple (fun b hb => hbits b (hfits.bits_declared b ?_)) hguard
      simp [Command.allBits, Command.conditionBits, hcondition, hb]

end Declared

end Qasm

open Qasm

/-- The names of the circuit's registers are words. -/
structure Circuit.WordNamed (c : Circuit) : Prop where
  qubits : ∀ q ∈ c.qubits, IsWord q.id.register
  bits : ∀ b ∈ c.bits, IsWord b.id.register

theorem Circuit.WordNamed.simple {c : Circuit} (hn : c.WordNamed) {commands : List Command}
    (hfits : ∀ command ∈ commands, command.Fits c.qubits c.bits) {p : Program}
    (hqubits : Declares (c.qubits.map Qubit.id) p.qubits)
    (hbits : Declares (c.bits.map Bit.id) p.bits)
    (hstatements : List.Forall₂ (fun command s => statementOf p.bits command = .ok s) commands
      p.statements) : p.Simple := by
  obtain ⟨hq, hqnames⟩ := hqubits.simple (by simpa using hn.qubits)
  obtain ⟨hb, hbnames⟩ := hbits.simple (by simpa using hn.bits)
  refine ⟨hqnames, hbnames, fun s hs => ?_⟩
  obtain ⟨command, hcommand, hstatement⟩ := exists_of_mem_right hstatements hs
  exact statementOf_simple (hfits command hcommand) (by simpa using hq) (by simpa using hb)
    hstatement

/-- The commands are the same but for their group. -/
structure Command.Alike (k l : Command) : Prop where
  op : k.op = l.op
  qubits : k.qubits = l.qubits
  bits : k.bits = l.bits
  condition : k.condition = l.condition

theorem alike_of_statementOf {registers : List Register} {k l : Command}
    {qubits qubits' : List Qubit} {bits bits' : List Bit} (hk : k.Fits qubits bits)
    (hl : l.Fits qubits' bits') {s : Statement}
    (hs : statementOf registers k = .ok s) (hs' : statementOf registers l = .ok s) :
    k.Alike l := by
  obtain ⟨haction, hguard⟩ := statementOf_eq_ok_iff.1 hs
  obtain ⟨haction', hguard'⟩ := statementOf_eq_ok_iff.1 hs'
  obtain ⟨hop, hqubits, hbits⟩ := actionOf_determines hk hl haction haction'
  exact ⟨hop, hqubits, hbits, conditions_eq hguard hguard'⟩

/-- Lists of commands with the same statements are alike, command by command. -/
theorem alike_of_statements {registers : List Register} {qubits qubits' : List Qubit}
    {bits bits' : List Bit} {ks ls : List Command} {ss : List Statement}
    (hks : ∀ k ∈ ks, k.Fits qubits bits) (hls : ∀ l ∈ ls, l.Fits qubits' bits')
    (h : List.Forall₂ (fun k s => statementOf registers k = .ok s) ks ss)
    (h' : List.Forall₂ (fun l s => statementOf registers l = .ok s) ls ss) :
    List.Forall₂ Command.Alike ks ls := by
  induction h generalizing ls with
  | nil =>
    cases h'
    exact .nil
  | cons hk _ ih =>
    cases h' with
    | cons hl hrest =>
      rw [List.forall_mem_cons] at hks hls
      exact .cons (alike_of_statementOf hks.1 hls.1 hk hl) (ih hks.2 hls.2 hrest)

/-- The text of a circuit's program determines the registers, and the commands but for their
groups once boxes are inlined. -/
theorem Reachable.emit_determines {c d : Circuit} (hc : Reachable c) (hd : Reachable d)
    (hcn : c.WordNamed) (hdn : d.WordNamed) {text : String} (htc : emit c = .ok text)
    (htd : emit d = .ok text) :
    (∃ qubits, registersOf (c.qubits.map Qubit.id) = .ok qubits ∧
      registersOf (d.qubits.map Qubit.id) = .ok qubits) ∧
    (∃ bits, registersOf (c.bits.map Bit.id) = .ok bits ∧
      registersOf (d.bits.map Bit.id) = .ok bits) ∧
    ∃ m n c' d', Build.inline.run c = .ok m c' ∧ Build.inline.run d = .ok n d' ∧
      List.Forall₂ Command.Alike c'.commands d'.commands := by
  obtain ⟨-, ks, p, hks, hp, hpt⟩ := emit_eq_ok_iff.1 htc
  obtain ⟨-, ls, p', hls, hp', hpt'⟩ := emit_eq_ok_iff.1 htd
  have hkfits := fun k hk => (hc.valid.inlined_fits ks hks k hk).1
  have hlfits := fun l hl => (hd.valid.inlined_fits ls hls l hl).1
  obtain ⟨hqubits, hbits, -, hstatements⟩ := programOf_eq_ok_iff.1 hp
  obtain ⟨hqubits', hbits', -, hstatements'⟩ := programOf_eq_ok_iff.1 hp'
  have hsimple := hcn.simple hkfits (.of_registersOf hqubits) (.of_registersOf hbits) hstatements
  have hsimple' :=
    hdn.simple hlfits (.of_registersOf hqubits') (.of_registersOf hbits') hstatements'
  obtain rfl : p = p' := hsimple.text_inj hsimple' (hpt.trans hpt'.symm)
  have hinline := Build.inline_run c
  have hinline' := Build.inline_run d
  rw [hks] at hinline
  rw [hls] at hinline'
  exact ⟨⟨_, hqubits, hqubits'⟩, ⟨_, hbits, hbits'⟩, _, _, _, _, hinline, hinline',
    alike_of_statements hkfits hlfits hstatements hstatements'⟩

/-- Both bits of a register are set. -/
def Condition.bothSet : Condition := ⟨[.ofIndex 0, .ofIndex 1], 3, by decide, by decide, by decide⟩

/-- A flip of the second qubit if both bits are set, in a group. -/
def Circuit.correction : Circuit :=
  (Call.add ⟨.gate .x, [.ofIndex 1], [], some .bothSet, some "fix"⟩).leaves
    ((Call.declareBitRegister "c" 2).leaves (.withQubits 2))

/-- The same flip in a box, without the group. -/
def Circuit.boxedCorrection : Circuit :=
  (Call.box ⟨0⟩ .flip [.ofIndex 1] (some .bothSet)).leaves
    ((Call.declareBitRegister "c" 2).leaves (.withQubits 2))

theorem Reachable.correction : Reachable .correction :=
  .call _ (.call _ (.withQubits 2) fun body hb => by cases hb) fun body hb => by cases hb

theorem Reachable.boxedCorrection : Reachable .boxedCorrection := by
  refine .call _ (.call _ (.withQubits 2) fun body hb => by cases hb) fun body hb => ?_
  cases hb
  exact .call _ (.withQubits 1) fun body hb => by cases hb

/-- The program of both. -/
def Qasm.correction : Program :=
  ⟨[⟨"q", 2⟩], [⟨"c", 2⟩], [⟨some (.register "c" 3), .gate "x" [.ofIndex 1]⟩]⟩

theorem emit_correction :
    emit .correction = .ok Qasm.correction.text ∧
      emit .boxedCorrection = .ok Qasm.correction.text :=
  ⟨emit_of_program rfl, emit_of_program rfl⟩

theorem wordNamed_correction :
    Circuit.correction.WordNamed ∧ Circuit.boxedCorrection.WordNamed := by
  have hq : ∀ q ∈ [Qubit.ofIndex 0, .ofIndex 1], IsWord q.id.register := by decide
  have hb : ∀ b ∈ [Bit.ofIndex 0, .ofIndex 1], IsWord b.id.register := by decide
  exact ⟨⟨hq, hb⟩, ⟨hq, hb⟩⟩

theorem Reachable.emit_determines_correction :
    Qasm.correction.text =
      "OPENQASM 3.0;\ninclude \"stdgates.inc\";\n\nqubit[2] q;\nbit[2] c;\n\n"
        ++ "if (c == 3) \x7b\n    x q[1];\n\x7d\n" ∧
    (emit .correction = .ok Qasm.correction.text ∧
      emit .boxedCorrection = .ok Qasm.correction.text) ∧
    (∃ qubits, registersOf (Circuit.correction.qubits.map Qubit.id) = .ok qubits ∧
      registersOf (Circuit.boxedCorrection.qubits.map Qubit.id) = .ok qubits) ∧
    (∃ bits, registersOf (Circuit.correction.bits.map Bit.id) = .ok bits ∧
      registersOf (Circuit.boxedCorrection.bits.map Bit.id) = .ok bits) ∧
    ∃ m n c' d', Build.inline.run .correction = .ok m c' ∧
      Build.inline.run .boxedCorrection = .ok n d' ∧
      List.Forall₂ Command.Alike c'.commands d'.commands := by
  refine ⟨by decide +kernel, emit_correction, ?_⟩
  exact Reachable.correction.emit_determines .boxedCorrection wordNamed_correction.1
    wordNamed_correction.2 emit_correction.1 emit_correction.2

end QuantumCircuit
