import QuantumCircuit.Proofs.DerivedRegisters
import QuantumCircuit.Proofs.Guards
import QuantumCircuit.Proofs.Permutations

/-! Registers that were handed out. Declaring a register of bits gives a handle, and the circuit
keeps only the bits. As long as bits come in whole registers, what the circuit tells about its
registers later is what was handed out, whatever was called in between and whatever was refused.
A register without bits is handed out and leaves no trace, so its name can be given once more. -/

namespace QuantumCircuit

/-! ### Runs of calls -/

/-- The register that a call hands out, if it declares one and is not refused. -/
def Call.handle? (c : Circuit) : Call → Option Register
  | .declareBitRegister name size =>
    match (Build.declareBitRegister name size).run c with
    | .ok register _ => some register
    | .error _ _ => none
  | _ => none

/-- The registers with at least one bit that calls hand out, in order. -/
def Circuit.handles (c : Circuit) : List Call → List Register
  | [] => []
  | call :: calls =>
    ((call.handle? c).filter fun r => 0 < r.size).toList ++ handles (call.leaves c) calls

/-! ### Bits that come in registers -/

theorem Register.mem_bits_iff {r : Register} {b : Bit} : b ∈ r.bits ↔ b.id.LiesIn r := by
  rw [bits_eq, List.mem_map]
  constructor
  · rintro ⟨i, hi, rfl⟩
    have := r.size.toNat_lt_size
    rw [List.mem_range] at hi
    refine ⟨UInt32.ofNat i, rfl, UInt32.lt_iff_toNat_lt.2 ?_⟩
    rwa [UInt32.toNat_ofNat_of_lt' (by omega)]
  · rintro ⟨i, hi, hlt⟩
    refine ⟨i.toNat, List.mem_range.2 (UInt32.lt_iff_toNat_lt.1 hlt), ?_⟩
    rw [UInt32.ofNat_toNat]
    exact congrArg Bit.mk hi.symm

/-- All bits of a register have its name. -/
theorem Register.map_register_bits (r : Register) :
    (r.bits.map fun b => b.id.register) = List.replicate r.size.toNat r.name := by
  rw [List.eq_replicate_iff]
  refine ⟨by simp, ?_⟩
  intro name hname
  obtain ⟨b, hb, rfl⟩ := List.mem_map.1 hname
  exact register_of_mem_bits hb

theorem eraseDups_replicate {α : Type} [DecidableEq α] {n : Nat} (h : 0 < n) (a : α) :
    (List.replicate n a).eraseDups = [a] := by
  obtain ⟨n, rfl⟩ := Nat.exists_eq_succ_of_ne_zero h.ne'
  simp [List.replicate_succ, List.eraseDups_cons]

/-- The bits of a circuit are those of registers with different names and at least one bit each. -/
structure Circuit.ConsistsOf (c : Circuit) (given : List Register) : Prop where
  bits_eq : c.bits = given.flatMap Register.bits
  names_nodup : (given.map Register.name).Nodup
  size_pos : ∀ r ∈ given, 0 < r.size

namespace Circuit.ConsistsOf

open Qasm

variable {c d : Circuit} {given : List Register} {name : String} {b : Bit}

theorem congr (h : c.ConsistsOf given) (hbits : d.bits = c.bits) : d.ConsistsOf given :=
  ⟨hbits.trans h.bits_eq, h.names_nodup, h.size_pos⟩

theorem mem_bits_iff (h : c.ConsistsOf given) : b ∈ c.bits ↔ ∃ r ∈ given, b ∈ r.bits := by
  rw [h.bits_eq, List.mem_flatMap]

/-- A register with a bit has its last one. -/
theorem declares (h : c.ConsistsOf given) : Declares (c.bits.map Bit.id) given where
  names_nodup := h.names_nodup
  lies_in u hu := by
    obtain ⟨b, hb, rfl⟩ := List.mem_map.1 hu
    obtain ⟨r, hr, hb⟩ := h.mem_bits_iff.1 hb
    exact ⟨r, hr, Register.mem_bits_iff.1 hb⟩
  reached r hr := by
    have hpos : 1 ≤ r.size.toNat := UInt32.lt_iff_toNat_lt.1 (h.size_pos r hr)
    have hlast : (r.size - 1).toNat = r.size.toNat - 1 :=
      UInt32.toNat_sub_of_le _ _ (UInt32.le_iff_toNat_le.2 hpos)
    have hlt : r.size - 1 < r.size := UInt32.lt_iff_toNat_lt.2 (by omega)
    have hbit : r.bit (r.size - 1) ∈ c.bits :=
      h.mem_bits_iff.2 ⟨r, hr, Register.mem_bits_iff.2 ⟨_, rfl, hlt⟩⟩
    exact ⟨r.size - 1, inRegister_mem_bits_iff.1 hbit, by omega⟩

/-- The names of the bits are those of the registers, in the same order. -/
theorem names_eq (h : c.ConsistsOf given) :
    given.map Register.name = (c.bits.map fun b => b.id.register).eraseDups := by
  rw [h.bits_eq]
  have hn := h.names_nodup
  have hpos := h.size_pos
  clear h
  induction given with
  | nil => rfl
  | cons r given ih =>
    rw [List.map_cons, List.nodup_cons] at hn
    rw [List.forall_mem_cons, UInt32.lt_iff_toNat_lt] at hpos
    -- no later bit has the name of the first register
    have hlater : ((given.flatMap Register.bits).map fun b => b.id.register).removeAll
        (List.replicate r.size.toNat r.name) =
          (given.flatMap Register.bits).map fun b => b.id.register := by
      rw [List.removeAll, List.filter_eq_self]
      intro name hname
      obtain ⟨b, hb, rfl⟩ := List.mem_map.1 hname
      obtain ⟨s, hs, hb⟩ := List.mem_flatMap.1 hb
      rw [Register.register_of_mem_bits hb]
      have hne : s.name ≠ r.name := fun e => hn.1 (e ▸ List.mem_map_of_mem hs)
      simp [hne]
    rw [List.map_cons, List.flatMap_cons, List.map_append, List.eraseDups_append,
      Register.map_register_bits, eraseDups_replicate hpos.1, hlater, ← ih hn.2 hpos.2]
    rfl

theorem registers_eq (h : c.ConsistsOf given) : c.registers = .ok given :=
  registers_of_declares h.declares h.names_eq

theorem register?_eq (h : c.ConsistsOf given) {r : Register} (hr : r ∈ given) :
    c.register? r.name = .ok (some r) :=
  register?_of_spans (h.declares.mem_iff_spans.1 hr)

theorem used_iff (h : c.ConsistsOf given) :
    (∃ b ∈ c.bits, b.id.register = name) ↔ name ∈ given.map Register.name := by
  rw [h.declares.mem_names_iff]
  simp

theorem register?_eq_none (h : c.ConsistsOf given) (hname : name ∉ given.map Register.name) :
    c.register? name = .ok none :=
  register?_of_unused fun _ hi => hname (h.used_iff.1 ⟨_, hi, rfl⟩)

theorem existsUnique_register (h : c.ConsistsOf given) (hb : b ∈ c.bits) :
    ∃! r, r ∈ given ∧ b ∈ r.bits := by
  obtain ⟨r, hr, hbr⟩ := h.mem_bits_iff.1 hb
  refine ⟨r, ⟨hr, hbr⟩, ?_⟩
  rintro s ⟨hs, hbs⟩
  refine h.declares.eq_of_name hs hr ?_
  rw [← Register.register_of_mem_bits hbs, Register.register_of_mem_bits hbr]

/-- One more register, under a new name; without a bit it makes no difference. -/
theorem append (h : c.ConsistsOf given) {r : Register} (hname : r.name ∉ given.map Register.name)
    (hbits : d.bits = c.bits ++ r.bits) :
    d.ConsistsOf (given ++ ((some r).filter fun r => 0 < r.size).toList) := by
  by_cases hpos : 0 < r.size
  · simp only [Option.filter_some, hpos, decide_true, if_true, Option.toList_some]
    refine ⟨?_, ?_, ?_⟩
    · rw [hbits, h.bits_eq]
      simp
    · rw [List.map_append]
      exact h.names_nodup.append (List.nodup_singleton _) (by simpa using hname)
    · rw [List.forall_mem_append]
      exact ⟨h.size_pos, by simpa using hpos⟩
  · have hempty : r.bits = [] := by
      rw [UInt32.lt_iff_toNat_lt, UInt32.toNat_zero, Nat.not_lt, Nat.le_zero] at hpos
      rw [List.eq_nil_iff_length_eq_zero, Register.length_bits, hpos]
    simp only [Option.filter_some, hpos, decide_false, Bool.false_eq_true, if_false,
      Option.toList_none, List.append_nil]
    exact h.congr (by rw [hbits, hempty, List.append_nil])

end Circuit.ConsistsOf

/-! ### What calls do to the bits -/

theorem Edit.Made.bits_eq {edit : Edit} {c c' : Circuit} (h : edit.Made c c')
    (hkeeps : ∀ new, edit ≠ .bits new) : c'.bits = c.bits := by
  cases edit with
  | bits new => exact absurd rfl (hkeeps new)
  | qubits new =>
    obtain ⟨-, -, rfl⟩ := h
    rfl
  | command added | permutation pairs =>
    obtain ⟨-, rfl⟩ := h
    rfl
  | inlining =>
    obtain ⟨flat, -, rfl⟩ := h
    rfl
  | name text | phase text =>
    cases h
    rfl

theorem Call.leaves_bits_eq {call : Call} (h : ∀ new, call.edit ≠ .bits new) (c : Circuit) :
    (call.leaves c).bits = c.bits := by
  rcases call.leaves_cases c with hsame | hmade
  · rw [hsame]
  · exact hmade.bits_eq h

namespace Circuit.ConsistsOf

variable {c : Circuit} {given : List Register}

/-- A register is refused if its name was handed out, and is new otherwise. -/
theorem declareBitRegister_run (h : c.ConsistsOf given) (name : String) (size : UInt32) :
    (Build.declareBitRegister name size).run c =
      if name ∈ given.map Register.name then .error (.duplicateRegister name) c
      else .ok ⟨name, size⟩ (Kind.bit.append c (Register.mk name size).bits) := by
  have hused : (∃ b ∈ Kind.bit.list c, (Kind.bit.id b).register = name) ↔
      name ∈ given.map Register.name := h.used_iff
  rw [Build.declareBitRegister, EStateM.run_bind, Build.declareRegister_run]
  by_cases hname : name ∈ given.map Register.name
  · rw [if_pos (hused.2 hname), if_pos hname]
  · rw [if_neg (mt hused.1 hname), if_neg hname]
    rfl

/-- One call. -/
theorem step (h : c.ConsistsOf given) {call : Call} (hcall : ∀ b, call ≠ .declareBit b) :
    (call.leaves c).ConsistsOf
      (given ++ ((call.handle? c).filter fun r => 0 < r.size).toList) := by
  cases call with
  | declareBit b => exact absurd rfl (hcall b)
  | declareBitRegister name size =>
    rw [Call.leaves, Call.action, Build.leaves, EStateM.run_bind, Call.handle?,
      h.declareBitRegister_run]
    by_cases hname : name ∈ given.map Register.name
    · rw [if_pos hname]
      exact (List.append_nil given).symm ▸ h
    · rw [if_neg hname]
      exact h.append hname rfl
  | _ =>
    refine (List.append_nil given).symm ▸ h.congr (Call.leaves_bits_eq (fun new hnew => ?_) c)
    cases hnew

/-- All calls. -/
theorem run {calls : List Call} (h : c.ConsistsOf given) (hcalls : ∀ b, .declareBit b ∉ calls) :
    (c.after calls).ConsistsOf (given ++ c.handles calls) := by
  induction calls generalizing c given with
  | nil => simpa [Circuit.handles, Circuit.after] using h
  | cons call calls ih =>
    have hstep := h.step fun b e => hcalls b (e ▸ List.mem_cons_self)
    rw [Circuit.handles, ← List.append_assoc]
    exact ih hstep fun b hb => hcalls b (List.mem_cons_of_mem call hb)

end Circuit.ConsistsOf

/-- In a run of calls that starts without bits and declares them in registers only, the registers
that the circuit tells are those that were handed out and have a bit, in the order of the calls;
each is found under its name, and nothing under any other. Every bit of theirs is declared,
and every declared bit is in exactly one of them. A further register is refused if one of them
has its name, and handed out if not. -/
theorem Circuit.handles_agree {c : Circuit} (hbits : c.bits = []) {calls : List Call}
    (hcalls : ∀ b, .declareBit b ∉ calls) :
    (c.after calls).registers = .ok (c.handles calls) ∧
      (∀ r ∈ c.handles calls, (c.after calls).register? r.name = .ok (some r)) ∧
      (∀ name, name ∉ (c.handles calls).map Register.name →
        (c.after calls).register? name = .ok none) ∧
      (∀ r ∈ c.handles calls, ∀ b ∈ r.bits, b ∈ (c.after calls).bits) ∧
      ((c.handles calls).map Register.name).Nodup ∧
      (∀ b ∈ (c.after calls).bits, ∃! r, r ∈ c.handles calls ∧ b ∈ r.bits) ∧
      ∀ name size,
        (name ∈ (c.handles calls).map Register.name →
          (Build.declareBitRegister name size).run (c.after calls) =
            .error (.duplicateRegister name) (c.after calls)) ∧
        (name ∉ (c.handles calls).map Register.name → ∃ c',
          (Build.declareBitRegister name size).run (c.after calls) = .ok ⟨name, size⟩ c') := by
  have hnone : c.ConsistsOf [] := ⟨hbits, .nil, by simp⟩
  have h : (c.after calls).ConsistsOf (c.handles calls) := hnone.run hcalls
  refine ⟨h.registers_eq, fun r hr => h.register?_eq hr,
    fun name hname => h.register?_eq_none hname,
    fun r hr b hb => h.mem_bits_iff.2 ⟨r, hr, hb⟩, h.names_nodup,
    fun b hb => h.existsUnique_register hb, fun name size => ?_⟩
  rw [h.declareBitRegister_run]
  exact ⟨fun hname => if_pos hname, fun hname => ⟨_, if_neg hname⟩⟩

/-- A register of two bits, the same name again, a register of none, a box that is inlined, and a
register of as many bits as there can be. -/
def Call.spacious : List Call :=
  [.declareBitRegister "c" 2, .declareBitRegister "c" 5, .declareBitRegister "e" 0,
    .box ⟨0⟩ .flip [.ofIndex 0] none, .inline, .declareBitRegister "m" 4294967295]

theorem Circuit.handles_agree_spacious :
    (Circuit.withQubits 1).handles Call.spacious = [⟨"c", 2⟩, ⟨"m", 4294967295⟩] ∧
      ((Circuit.withQubits 1).after Call.spacious).registers =
        .ok [⟨"c", 2⟩, ⟨"m", 4294967295⟩] ∧
      ((Circuit.withQubits 1).after Call.spacious).register? "e" = .ok none ∧
      ∃ c', (Build.declareBitRegister "e" 3).run ((Circuit.withQubits 1).after Call.spacious) =
        .ok ⟨"e", 3⟩ c' := by
  have hgiven : (Circuit.withQubits 1).handles Call.spacious =
      [⟨"c", 2⟩, ⟨"m", 4294967295⟩] := rfl
  have hcalls : ∀ b, .declareBit b ∉ Call.spacious := by simp [Call.spacious]
  have hnew : "e" ∉ ([⟨"c", 2⟩, ⟨"m", 4294967295⟩] : List Register).map Register.name := by decide
  obtain ⟨hregisters, -, hnone, -, -, -, hnext⟩ :=
    Circuit.handles_agree (c := .withQubits 1) rfl hcalls
  rw [hgiven] at hregisters hnone hnext
  exact ⟨hgiven, hregisters, hnone "e" hnew, (hnext "e" 3).2 hnew⟩

end QuantumCircuit
