import QuantumCircuit.Proofs.Reachable
import QuantumCircuit.Proofs.Registers

/-! Registers are not stored; they are told from the bits, in two ways. A circuit collects the names
first and then takes the largest index of each, while the pass that a program is made with keeps
the registers found so far and lets them grow. Both list the names in the order in which they
first occur, and both end a register one past its largest index. So they agree wherever every bit
has exactly one index, also in where they fail: neither can go past the last index. -/

namespace QuantumCircuit

instance lawfulOrderMax : Std.LawfulOrderMax UInt32 := by
  apply Std.LawfulOrderMax.of_max_le_iff
  · intro a b c
    simp only [UInt32.le_iff_toNat_le, Qasm.toNat_max]
    exact Nat.max_le
  · intro a b
    by_cases h : a ≤ b
    · exact .inr (if_pos h)
    · exact .inl (if_neg h)

theorem UnitId.single?_eq_some_iff {u : UnitId} {i : UInt32} :
    u.single? = some i ↔ u.index = [i] := by
  rw [single?]
  split
  next j hj => simp [hj]
  next h => simpa using h i

/-! ### Names in the order in which they first occur -/

theorem eraseDups_concat {α : Type} [DecidableEq α] (as : List α) (a : α) :
    (as ++ [a]).eraseDups = if a ∈ as then as.eraseDups else as.eraseDups ++ [a] := by
  rw [List.eraseDups_append]
  by_cases h : a ∈ as
  · simp [List.removeAll, h]
  · simp [List.removeAll, h, List.eraseDups_cons]

namespace Qasm

/-- The pass lists the names of the units. -/
theorem map_name_registersFrom {seen us : List UnitId} {found rs : List Register}
    (hfound : found.map Register.name = (seen.map UnitId.register).eraseDups)
    (hrun : registersFrom found us = .ok rs) :
    rs.map Register.name = ((seen ++ us).map UnitId.register).eraseDups := by
  induction us generalizing seen found with
  | nil =>
    cases hrun
    rwa [List.append_nil]
  | cons u us ih =>
    rcases addressable_or_misplaced u with ⟨i, hi, hlast⟩ | ⟨e, he⟩
    · rw [registersFrom_cons hi hlast] at hrun
      rw [List.append_cons]
      refine ih ?_ hrun
      rw [map_name_extend, hfound, List.map_append, List.map_singleton, eraseDups_concat]
      simp only [List.mem_eraseDups]
    · rw [registersFrom_misplaced he] at hrun
      cases hrun

/-- What the pass fails at first is a unit with the last index, if all have one index. -/
theorem registersOf_overflows {us : List UnitId} (hsingle : ∀ u ∈ us, ∃ i, u.index = [i])
    {u : UnitId} (hu : u ∈ us) (hlast : u.index = [4294967295]) :
    registersOf us = .error (.overflow .pastLastIndex) := by
  rcases all_addressable_or_first us with hall | ⟨first, e, hfirst⟩
  · obtain ⟨i, hi, hne⟩ := hall u hu
    rw [hlast] at hi
    cases hi
    exact absurd rfl hne
  · rw [registersOf, hfirst.registersFrom]
    obtain ⟨before, after, rfl, -, he⟩ := hfirst
    cases he with
    | notSingle h =>
      obtain ⟨i, hi⟩ := hsingle first (List.mem_append_right before List.mem_cons_self)
      exact absurd hi (h i)
    | last h => rfl

end Qasm

namespace Circuit

open Qasm

variable {c : Circuit} {name : String} {r : Register} {rs : List Register}

/-! ### One register -/

theorem mem_registerIndices {i : UInt32} :
    i ∈ c.registerIndices name ↔ Bit.inRegister name i ∈ c.bits := by
  simp only [registerIndices, List.mem_filterMap, List.mem_filter, beq_iff_eq,
    UnitId.single?_eq_some_iff]
  constructor
  · rintro ⟨⟨register, index⟩, ⟨hb, rfl⟩, rfl⟩
    exact hb
  · intro hb
    exact ⟨_, ⟨hb, rfl⟩, rfl⟩

theorem inRegister_mem_bits_iff {i : UInt32} :
    Bit.inRegister name i ∈ c.bits ↔ ⟨name, [i]⟩ ∈ c.bits.map Bit.id := by
  constructor
  · exact List.mem_map_of_mem
  · intro h
    obtain ⟨⟨id⟩, hb, rfl⟩ := List.mem_map.1 h
    exact hb

theorem register?_of_unused (h : ∀ i, Bit.inRegister name i ∉ c.bits) :
    c.register? name = .ok none := by
  have hnone : c.registerIndices name = [] :=
    List.eq_nil_iff_forall_not_mem.2 fun i hi => h i (mem_registerIndices.1 hi)
  rw [register?, hnone]
  rfl

theorem register?_of_last {last : UInt32} (hlast : Bit.inRegister name last ∈ c.bits)
    (hle : ∀ i, Bit.inRegister name i ∈ c.bits → i ≤ last) :
    c.register? name = (pastIndex last).map fun size => some ⟨name, size⟩ := by
  have hmax : (c.registerIndices name).max? = some last := by
    simp only [List.max?_eq_some_iff, mem_registerIndices]
    exact ⟨hlast, hle⟩
  rw [register?, hmax]

/-- A register that reaches one past the largest index of its name is found. -/
theorem register?_of_spans (h : r.Spans (c.bits.map Bit.id)) :
    c.register? r.name = .ok (some r) := by
  obtain ⟨⟨last, hlast, hsize⟩, hbelow⟩ := h
  have hne : last ≠ 4294967295 := by
    have := r.size.toNat_lt
    rw [Ne, eq_last_iff]
    omega
  have hpast : last + 1 = r.size := UInt32.toNat_inj.1 (by rw [hsize, toNat_succ hne])
  rw [register?_of_last (inRegister_mem_bits_iff.2 hlast), pastIndex_eq, if_neg hne, hpast]
  · rfl
  · intro i hi
    have := UInt32.lt_iff_toNat_lt.1 (hbelow i (inRegister_mem_bits_iff.1 hi))
    exact UInt32.le_iff_toNat_le.2 (by omega)

/-- Only the last index there is lets a register overflow. -/
theorem register?_eq_error_iff :
    c.register? name = .error .pastLastIndex ↔ Bit.inRegister name 4294967295 ∈ c.bits := by
  constructor
  · intro h
    rw [register?] at h
    split at h
    next => cases h
    next last hmax =>
      rw [List.max?_eq_some_iff, mem_registerIndices] at hmax
      rw [pastIndex_eq] at h
      split_ifs at h with hlast
      · exact hlast ▸ hmax.1
      · cases h
  · intro h
    rw [register?_of_last h, pastIndex_eq, if_pos rfl]
    · rfl
    · intro i _
      have := i.toNat_lt
      exact UInt32.le_iff_toNat_le.2 (show i.toNat ≤ 4294967295 by omega)

/-! ### All registers -/

theorem registers_of_declares (h : Declares (c.bits.map Bit.id) rs)
    (hnames : rs.map Register.name = (c.bits.map fun b => b.id.register).eraseDups) :
    c.registers = .ok rs := by
  have hfound : ((c.bits.map fun b => b.id.register).eraseDups.mapM c.register?) =
      .ok (rs.map some) := by
    rw [mapM_eq_ok_iff, ← hnames, List.forall₂_map_left_iff, List.forall₂_map_right_iff,
      List.forall₂_same]
    intro r hr
    exact register?_of_spans (h.mem_iff_spans.1 hr)
  rw [registers, hfound]
  simp [Except.map]

theorem registers_overflows {b : Bit} (hb : b ∈ c.bits) (hlast : b.id.index = [4294967295]) :
    c.registers = .error .pastLastIndex := by
  have hbit : Bit.inRegister b.id.register 4294967295 ∈ c.bits := by
    rwa [Bit.inRegister, ← hlast]
  have herror := register?_eq_error_iff.2 hbit
  have hname : b.id.register ∈ (c.bits.map fun b => b.id.register).eraseDups :=
    List.mem_eraseDups.2 (List.mem_map_of_mem (f := fun b => b.id.register) hb)
  rw [registers]
  cases hparts : (c.bits.map fun b => b.id.register).eraseDups.mapM c.register? with
  | error e => cases e; rfl
  | ok parts =>
    -- the name of the last bit would have been passed
    obtain ⟨part, -, hpart⟩ := exists_of_mem_right (mapM_eq_ok_iff.1 hparts).flip hname
    rw [herror] at hpart
    cases hpart

/-- Where every bit has exactly one index, the registers that a circuit tells and those that one
pass over its bits finds are the same, in the same order, each as long as its largest index asks
for; and if one of these indices is the last there is, both ways overflow. What else is declared,
the register of a name overflows when the last bit of that name is declared, and only then. -/
theorem registers_agree (c : Circuit) :
    ((∀ b ∈ c.bits, ∃ i, b.id.index = [i]) →
      ((∀ b ∈ c.bits, b.id.index ≠ [4294967295]) →
        ∃ rs, registersOf (c.bits.map Bit.id) = .ok rs ∧ c.registers = .ok rs ∧
          rs.map Register.name = (c.bits.map fun b => b.id.register).eraseDups ∧
          ∀ r, r ∈ rs ↔ r.Spans (c.bits.map Bit.id)) ∧
      ((∃ b ∈ c.bits, b.id.index = [4294967295]) →
        registersOf (c.bits.map Bit.id) = .error (.overflow .pastLastIndex) ∧
          c.registers = .error .pastLastIndex)) ∧
    ∀ name, c.register? name = .error .pastLastIndex ↔ Bit.inRegister name 4294967295 ∈ c.bits := by
  refine ⟨fun hsingle => ⟨fun hlast => ?_, ?_⟩, fun name => register?_eq_error_iff⟩
  · have haddressable : ∀ u ∈ c.bits.map Bit.id, u.Addressable := by
      rw [List.forall_mem_map]
      intro b hb
      obtain ⟨i, hi⟩ := hsingle b hb
      exact ⟨i, hi, fun e => hlast b hb (e ▸ hi)⟩
    obtain ⟨rs, hrs⟩ := exists_registersFrom haddressable []
    have hdeclares : Declares (c.bits.map Bit.id) rs := .of_registersOf hrs
    have hnames :
        rs.map Register.name = (([] ++ c.bits.map Bit.id).map UnitId.register).eraseDups :=
      map_name_registersFrom rfl hrs
    rw [List.nil_append, List.map_map] at hnames
    exact ⟨rs, hrs, registers_of_declares hdeclares hnames, hnames, fun r =>
      hdeclares.mem_iff_spans⟩
  · rintro ⟨b, hb, hlast⟩
    refine ⟨registersOf_overflows ?_ (List.mem_map_of_mem hb) hlast, registers_overflows hb hlast⟩
    rwa [List.forall_mem_map]

/-- Register `m` is declared from a large index down and with a gap, and another one in between. -/
def interleaved : Circuit :=
  (Call.declareBit (.inRegister "m" 2)).leaves
    ((Call.declareBit (.ofIndex 0)).leaves
      ((Call.declareBit (.inRegister "m" 5)).leaves .empty))

/-- The last bit of a register is declared, and then its first. -/
def overfull : Circuit :=
  (Call.declareBit (.ofIndex 0)).leaves ((Call.declareBit (.ofIndex 4294967295)).leaves .empty)

theorem registers_agree_interleaved :
    (registersOf (interleaved.bits.map Bit.id) = .ok [⟨"m", 6⟩, ⟨"c", 1⟩] ∧
      interleaved.registers = .ok [⟨"m", 6⟩, ⟨"c", 1⟩]) ∧
    registersOf (overfull.bits.map Bit.id) = .error (.overflow .pastLastIndex) ∧
      overfull.registers = .error .pastLastIndex ∧
      overfull.register? "c" = .error .pastLastIndex := by
  have hbits : interleaved.bits = [.inRegister "m" 5, .ofIndex 0, .inRegister "m" 2] := by
    decide +kernel
  have hfull : overfull.bits = [.ofIndex 4294967295, .ofIndex 0] := by decide +kernel
  obtain ⟨hagree, -⟩ := registers_agree interleaved
  obtain ⟨hoverflow, hregister⟩ := registers_agree overfull
  rw [hbits] at hagree
  rw [hfull] at hoverflow hregister
  obtain ⟨rs, hpass, htold, -, -⟩ := (hagree (by simp [Bit.inRegister, Bit.ofIndex])).1
    (by simp [Bit.inRegister, Bit.ofIndex])
  have hrs : registersOf ([.inRegister "m" 5, .ofIndex 0, .inRegister "m" 2].map Bit.id) =
      .ok [⟨"m", 6⟩, ⟨"c", 1⟩] := rfl
  obtain rfl : [⟨"m", 6⟩, ⟨"c", 1⟩] = rs := Except.ok.inj (hrs.symm.trans hpass)
  rw [hbits, hfull]
  refine ⟨⟨hrs, htold⟩, ?_⟩
  obtain ⟨hpass, htold⟩ := (hoverflow (by simp [Bit.inRegister, Bit.ofIndex])).2
    ⟨.ofIndex 4294967295, List.mem_cons_self, rfl⟩
  exact ⟨hpass, htold, (hregister "c").2 List.mem_cons_self⟩

end Circuit

end QuantumCircuit
