import Mathlib.Algebra.BigOperators.Intervals
import QuantumCircuit.Proofs.Scoping

/-! What the guards of a program mean. A guard on a bit compares that bit with a number; a guard on
a register compares the number that all bits of the register spell, as large as it is declared,
bit `i` counting `2 ^ i`. Such a guard does not say which bits its condition reads, so it means
the same only because the condition reads all of them in order. A register with a gap is never
compared, since no condition can read a bit that the circuit does not declare. The text of a guard
says the same where names are words; the name of a register can also look like a bit. -/

namespace QuantumCircuit

/-! ### Numbers of registers -/

theorem littleEndian_append (as bs : List Bool) :
    littleEndian (as ++ bs) = littleEndian as + 2 ^ as.length * littleEndian bs := by
  induction as with
  | nil => simp [littleEndian]
  | cons a as ih =>
    rw [List.cons_append, littleEndian, littleEndian, ih, List.length_cons, pow_succ', mul_assoc,
      mul_add, add_assoc]

theorem littleEndian_map_range (f : ℕ → Bool) (n : ℕ) :
    littleEndian ((List.range n).map f) = ∑ i ∈ Finset.range n, (f i).toNat * 2 ^ i := by
  induction n with
  | zero => rfl
  | succ n ih =>
    rw [List.range_succ, List.map_append, littleEndian_append, ih, Finset.sum_range_succ]
    simp [littleEndian, mul_comm]

/-- The number that all bits of the register spell, bit `i` counting `2 ^ i`. -/
def Register.reading (r : Register) (values : Bit → Bool) : ℕ :=
  ∑ i ∈ Finset.range r.size.toNat, (values (r.bit (UInt32.ofNat i))).toNat * 2 ^ i

theorem Register.bits_eq (r : Register) :
    r.bits = (List.range r.size.toNat).map fun i => r.bit (UInt32.ofNat i) := by
  simp [bits, indicesBelow]

@[simp] theorem Register.length_bits (r : Register) : r.bits.length = r.size.toNat := by
  simp [bits_eq]

theorem Register.littleEndian_bits (r : Register) (values : Bit → Bool) :
    littleEndian (r.bits.map values) = r.reading values := by
  rw [bits_eq, List.map_map, littleEndian_map_range]
  rfl

namespace Qasm

/-! ### Covered registers -/

theorem find?_name_eq_some_iff {rs : List Register} (h : (rs.map Register.name).Nodup)
    {name : String} {r : Register} :
    (rs.find? fun s => s.name == name) = some r ↔ r ∈ rs ∧ r.name = name := by
  constructor
  · intro hfind
    exact ⟨List.mem_of_find?_eq_some hfind, by simpa using List.find?_some hfind⟩
  · rintro ⟨hr, rfl⟩
    cases hfind : rs.find? fun s => s.name == r.name with
    | none =>
      rw [List.find?_eq_none] at hfind
      exact absurd (beq_self_eq_true r.name) (hfind r hr)
    | some s =>
      have hname : s.name = r.name := by simpa using List.find?_some hfind
      rw [List.inj_on_of_nodup_map h (List.mem_of_find?_eq_some hfind) hr hname]

/-- Bits cover a register when they are its bits. -/
theorem coversRegister_iff {rs : List Register} (h : (rs.map Register.name).Nodup) {name : String}
    {bits : List Bit} :
    coversRegister rs name bits ↔ ∃ r ∈ rs, r.name = name ∧ bits = r.bits := by
  rw [coversRegister, Bool.and_eq_true, consecutiveFrom_zero_iff]
  constructor
  · rintro ⟨hsize, hbits⟩
    cases hfind : rs.find? fun s => s.name == name with
    | none => simp [hfind] at hsize
    | some r =>
      obtain ⟨hr, rfl⟩ := (find?_name_eq_some_iff h).1 hfind
      rw [hfind] at hsize
      have hlength : r.size.toNat = bits.length := by simpa using hsize
      rw [← hlength] at hbits
      exact ⟨r, hr, rfl, hbits.trans r.bits_eq.symm⟩
  · rintro ⟨r, hr, rfl, rfl⟩
    rw [(find?_name_eq_some_iff h).2 ⟨hr, rfl⟩, Register.length_bits]
    exact ⟨beq_self_eq_true _, r.bits_eq⟩

/-! ### Guards -/

/-- Whether a guard holds, given the registers of bits as they are declared. -/
def Guard.Holds (declared : List Register) (values : Bit → Bool) : Guard → Prop
  | .bit b value => (values b).toNat = value.toNat
  | .register name value =>
    ∃ r ∈ declared, r.name = name ∧ r.reading values = value.toNat

theorem guardOf_holds_iff {units : List UnitId} {rs : List Register} (h : Declares units rs)
    {condition : Condition} {g : Guard} (hg : guardOf rs condition = .ok g) (values : Bit → Bool) :
    g.Holds rs values ↔ condition.holds values := by
  rw [Condition.holds, beq_iff_eq]
  rcases guardOf_cases hg with ⟨b, hb, rfl⟩ | ⟨name, hcovers, -, rfl⟩
  · rw [hb]
    simp [Guard.Holds, littleEndian]
  · obtain ⟨r, hr, hname, hbits⟩ := (coversRegister_iff h.names_nodup).1 hcovers
    rw [hbits, Register.littleEndian_bits]
    constructor
    · rintro ⟨s, hs, hname', hreading⟩
      rwa [h.eq_of_name hr hs (hname.trans hname'.symm)]
    · intro hreading
      exact ⟨r, hr, hname, hreading⟩

/-- The text says how large a register of bits is. -/
theorem Program.Simple.bit_declared_iff {p : Program} (h : p.Simple) {name : String}
    (hname : IsWord name) {size : ℕ} :
    declared "bit" size name ∈ sentences p.text ↔
      ∃ r ∈ p.bits, r.name = name ∧ r.size.toNat = size := by
  constructor
  · intro hs
    have hdeclares : IsDeclarationOf name (declared "bit" size name) :=
      ⟨hname, "bit", by decide, size, rfl⟩
    rw [h.sentences_eq] at hs
    obtain ⟨d, hd, hdname, hs⟩ := h.exists_of_isDeclaration (List.Subset.refl _) hs hdeclares
    obtain ⟨hkind, hsize, -⟩ :=
      declared_inj (by decide) (isWord_of_kind (p.kind_of_mem_registers hd)) hs
    rcases p.mem_registers_iff.1 hd with ⟨hqubit, -⟩ | ⟨-, hr⟩
    · exact absurd (hkind.trans hqubit) (by decide)
    · exact ⟨d.2, hr, hdname, hsize.symm⟩
  · rintro ⟨r, hr, rfl, rfl⟩
    have hd : ("bit", r) ∈ p.registers := p.mem_registers_iff.2 (.inr ⟨rfl, hr⟩)
    have hm := h.mem_sentences hd
    rwa [registerSentence] at hm

/-- What the text asks for is what the guard means. -/
theorem Guard.Simple.ifHolds_iff {g : Guard} (hg : g.Simple) {p : Program} (hp : p.Simple)
    (values : Bit → Bool) : IfHolds p.text values g.sentence ↔ g.Holds p.bits values := by
  cases g with
  | bit b v =>
    rw [sentence_bit, ifHolds_bit_iff hg]
    rfl
  | register name v =>
    rw [sentence_register, ifHolds_register_iff hg]
    simp only [hp.bit_declared_iff hg, Guard.Holds]
    constructor
    · rintro ⟨size, ⟨r, hr, rfl, rfl⟩, hvalue⟩
      exact ⟨r, hr, rfl, hvalue⟩
    · rintro ⟨r, hr, rfl, hvalue⟩
      exact ⟨r.size.toNat, ⟨r, hr, rfl, rfl⟩, hvalue⟩

end Qasm

open Qasm

/-- Statement by statement, the guards of an emitted program hold when the conditions of the inlined
commands do, whatever the values of the bits. A register guard is read with all bits of the
one register that is declared under its name. Where the names are words this can be read in the
text: its guarded blocks are opened by questions for these conditions, in order. -/
theorem Reachable.guards_hold_iff {c : Circuit} (h : Reachable c) {text : String}
    (htext : emit c = .ok text) :
    ∃ p n c', program c = .ok p ∧ p.text = text ∧ Build.inline.run c = .ok n c' ∧
      (p.bits.map Register.name).Nodup ∧
      List.Forall₂ (fun command s =>
        Option.Rel (fun condition guard => ∀ values : Bit → Bool,
          guard.Holds p.bits values ↔ condition.holds values) command.condition s.guard)
        c'.commands p.statements ∧
      (c.WordNamed →
        List.Forall₂ (fun condition s => ∀ values : Bit → Bool,
          IfHolds text values s ↔ condition.holds values)
          (c'.commands.filterMap Command.condition) (ifs text) ∧
        ∀ p' : Program, p'.Simple ∧ p'.text = text ↔ p' = p) := by
  obtain ⟨p, n, c', hprogram, rfl, hrun, ht⟩ := exists_program h.valid htext
  have hguards : List.Forall₂ (fun command s =>
      Option.Rel (fun condition guard => ∀ values : Bit → Bool,
        guard.Holds p.bits values ↔ condition.holds values) command.condition s.guard)
      c'.commands p.statements := by
    refine ht.statements.imp ?_
    rintro ⟨op, qubits, bits, condition, opgroup⟩ ⟨guard, action⟩ hstatement
    have hguard := (statementOf_eq_ok_iff.1 hstatement).2
    cases hguard with
    | none => exact .none
    | some hguard => exact .some (guardOf_holds_iff ht.bits hguard)
  refine ⟨p, n, c', hprogram, rfl, hrun, ht.bits.names_nodup, hguards, fun hn =>
    ⟨?_, ht.only_program hn⟩⟩
  have hp := ht.simple hn
  have hboth := ((List.forall₂_and_left _ _).2 ⟨hp.statements, hguards.flip⟩).flip
  rw [hp.ifs_eq]
  refine List.rel_filterMap ?_ hboth
  rintro ⟨op, qubits, bits, condition, opgroup⟩ ⟨guard, action⟩ ⟨hs, hguard⟩
  cases hguard with
  | none => exact .none
  | some hguard =>
    exact .some fun values => ((hs.1 _ rfl).ifHolds_iff hp values).trans (hguard values)

/-- The second bit of register `m` is set and the first is not. -/
def Condition.secondOnly : Condition :=
  ⟨[.inRegister "m" 0, .inRegister "m" 1], 2, by decide, by decide, by decide⟩

/-- A flip in a box under a condition on register `m`, whose bits are declared from the last one on
and with another bit in between. -/
def Circuit.shuffledFlip : Circuit :=
  (Call.box ⟨0⟩ .flip [.ofIndex 0] (some .secondOnly)).leaves
    ((Call.declareBit (.inRegister "m" 0)).leaves
      ((Call.declareBit (.ofIndex 0)).leaves
        ((Call.declareBit (.inRegister "m" 1)).leaves (.withQubits 1))))

theorem Reachable.shuffledFlip : Reachable .shuffledFlip := by
  refine .call _ (.call _ (.call _ (.call _ (.withQubits 1) ?_) ?_) ?_) ?_
  · intro body hb; cases hb
  · intro body hb; cases hb
  · intro body hb; cases hb
  · intro body hb
    cases hb
    exact .call _ (.withQubits 1) fun body hb => by cases hb

/-- The program of the shuffled flip. -/
def Qasm.shuffledFlip : Program :=
  ⟨[⟨"q", 1⟩], [⟨"m", 2⟩, ⟨"c", 1⟩], [⟨some (.register "m" 2), .gate "x" [.ofIndex 0]⟩]⟩

theorem Circuit.shuffledFlip_wordNamed : Circuit.shuffledFlip.WordNamed := by
  have hq : ∀ q ∈ [Qubit.ofIndex 0], IsWord q.id.register := by decide
  have hb : ∀ b ∈ [Bit.inRegister "m" 1, .ofIndex 0, .inRegister "m" 0],
      IsWord b.id.register := by decide
  exact ⟨hq, hb⟩

theorem Reachable.guards_hold_iff_shuffledFlip :
    emit .shuffledFlip = .ok Qasm.shuffledFlip.text ∧
    ∃ p n c', program .shuffledFlip = .ok p ∧ p.text = Qasm.shuffledFlip.text ∧
      Build.inline.run .shuffledFlip = .ok n c' ∧ (p.bits.map Register.name).Nodup ∧
      List.Forall₂ (fun command s =>
        Option.Rel (fun condition guard => ∀ values : Bit → Bool,
          guard.Holds p.bits values ↔ condition.holds values) command.condition s.guard)
        c'.commands p.statements ∧
      List.Forall₂ (fun condition s => ∀ values : Bit → Bool,
        IfHolds Qasm.shuffledFlip.text values s ↔ condition.holds values)
        (c'.commands.filterMap Command.condition) (ifs Qasm.shuffledFlip.text) ∧
      ∀ p' : Program, p'.Simple ∧ p'.text = Qasm.shuffledFlip.text ↔ p' = p := by
  have htext : emit .shuffledFlip = .ok Qasm.shuffledFlip.text := emit_of_program rfl
  obtain ⟨p, n, c', hp, hptext, hrun, hnames, hguards, hwords⟩ :=
    Reachable.shuffledFlip.guards_hold_iff htext
  exact ⟨htext, p, n, c', hp, hptext, hrun, hnames, hguards,
    hwords Circuit.shuffledFlip_wordNamed⟩

/-- The first bit of register `c[0]` is set and the second is not. -/
def Condition.firstOnly : Condition :=
  ⟨[.inRegister "c[0]" 0, .inRegister "c[0]" 1], 1, by decide, by decide, by decide⟩

/-- A flip under a condition on a register whose name is the label of a bit. -/
def Circuit.labelName : Circuit :=
  (Call.add ⟨.gate .x, [.ofIndex 0], [], some .firstOnly, none⟩).leaves
    ((Call.declareBitRegister "c[0]" 2).leaves
      ((Call.declareBitRegister "c" 1).leaves (.withQubits 1)))

theorem Reachable.labelName : Reachable .labelName := by
  refine .call _ (.call _ (.call _ (.withQubits 1) ?_) ?_) ?_
  · intro body hb; cases hb
  · intro body hb; cases hb
  · intro body hb; cases hb

/-- The program of the flip under a label. -/
def Qasm.labelName : Program :=
  ⟨[⟨"q", 1⟩], [⟨"c", 1⟩, ⟨"c[0]", 2⟩], [⟨some (.register "c[0]" 1), .gate "x" [.ofIndex 0]⟩]⟩

/-- Where names are not words, a text can ask for one bit in place of a register. -/
theorem Reachable.guard_misread :
    Reachable .labelName ∧ emit .labelName = .ok Qasm.labelName.text ∧
    Qasm.labelName.text = "OPENQASM 3.0;\ninclude \"stdgates.inc\";\n\n"
      ++ "qubit[1] q;\nbit[1] c;\nbit[2] c[0];\n\nif (c[0] == 1) \x7b\n    x q[0];\n\x7d\n" ∧
    (∃ n c', Build.inline.run .labelName = .ok n c' ∧
      c'.commands.filterMap Command.condition = [.firstOnly]) ∧
    ifs Qasm.labelName.text = [compared "c[0]" 1] ∧
    ∃ values : Bit → Bool, IfHolds Qasm.labelName.text values (compared "c[0]" 1) ∧
      Condition.firstOnly.holds values = false := by
  have htext : emit .labelName = .ok Qasm.labelName.text := emit_of_program rfl
  refine ⟨.labelName, htext, by decide +kernel, ⟨_, _, rfl, rfl⟩, by decide +kernel,
    fun b => b == .inRegister "c" 0, ?_, by decide⟩
  have hlabel : "c[0]" = "c" ++ "[" ++ (0 : UInt32).toNat.repr ++ "]" := rfl
  rw [hlabel]
  exact .bit (by decide) rfl

end QuantumCircuit
