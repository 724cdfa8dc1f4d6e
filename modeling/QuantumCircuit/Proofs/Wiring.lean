import Mathlib.Data.List.Basic
import QuantumCircuit.Proofs.Validity

/-! How the units of a box's circuit are renamed. The unit at a place of the circuit's
list goes to the argument at that place. On commands that fit the circuit the renaming
never fails, keeps different units apart and gives commands that fit outside; the one
thing that can go wrong is a second condition. -/

namespace QuantumCircuit

/-! ### Places in a list -/

section Positional

variable {α : Type} [DecidableEq α] {inner outer : List α} {a b : α}

/-- The member of `outer` at the place that `a` has in `inner`. -/
def positional (inner outer : List α) (a : α) : α := outer.getD (inner.idxOf a) a

theorem positional_eq_getElem (hl : outer.length = inner.length) (ha : a ∈ inner) :
    ∃ h : inner.idxOf a < outer.length, positional inner outer a = outer[inner.idxOf a] := by
  have h : inner.idxOf a < outer.length := hl ▸ List.idxOf_lt_length_of_mem ha
  exact ⟨h, by simp [positional, h]⟩

theorem positional_mem (hl : outer.length = inner.length) (ha : a ∈ inner) :
    positional inner outer a ∈ outer := by
  obtain ⟨h, e⟩ := positional_eq_getElem hl ha
  exact e ▸ List.getElem_mem h

theorem positional_inj (hl : outer.length = inner.length) (hn : outer.Nodup) (ha : a ∈ inner)
    (hb : b ∈ inner) (e : positional inner outer a = positional inner outer b) : a = b := by
  obtain ⟨h₁, e₁⟩ := positional_eq_getElem hl ha
  obtain ⟨h₂, e₂⟩ := positional_eq_getElem hl hb
  rw [e₁, e₂] at e
  exact (List.idxOf_inj ha).1 ((hn.getElem_inj_iff).1 e)

/-- Renaming the arguments is renaming once more. -/
theorem positional_map (hl : outer.length = inner.length) (f : α → α) (ha : a ∈ inner) :
    positional inner (outer.map f) a = f (positional inner outer a) := by
  obtain ⟨h, e⟩ := positional_eq_getElem hl ha
  have hl' : (outer.map f).length = inner.length := by simpa using hl
  obtain ⟨h', e'⟩ := positional_eq_getElem hl' ha
  rw [e, e', List.getElem_map]

theorem lookup_zip (hl : outer.length = inner.length) (ha : a ∈ inner) :
    (inner.zip outer).lookup a = some (positional inner outer a) := by
  induction inner generalizing outer with
  | nil => simp at ha
  | cons x inner ih =>
    cases outer with
    | nil => simp at hl
    | cons y outer =>
      by_cases hx : a = x
      · subst hx; simp [positional]
      · have hm : a ∈ inner := by simpa [hx] using ha
        have hbeq : (a == x) = false := by simpa using hx
        rw [List.zip_cons_cons, List.lookup_cons, hbeq]
        simp only [ih (by simpa using hl) hm, positional,
          List.idxOf_cons_ne inner (Ne.symm hx), List.getD_cons_succ]

theorem rewired_zip (hl : outer.length = inner.length) (ha : a ∈ inner)
    (missing : α → Option String → Error) :
    rewired (inner.zip outer) missing a = .ok (positional inner outer a) := by
  rw [rewired, lookup_zip hl ha]

end Positional

/-! ### Renamings -/

/-- New names for the units of a circuit. -/
structure Renaming where
  qubit : Qubit → Qubit
  bit : Bit → Bit

/-- The units of a circuit go to the arguments of a box, place by place. -/
def Renaming.ofBox (body : Circuit) (qubits : List Qubit) (bits : List Bit) : Renaming :=
  ⟨positional body.qubits qubits, positional body.bits bits⟩

def Condition.renamed (f : Bit → Bit) (condition : Condition) : Condition :=
  condition.withBits (condition.bits.map f) (List.length_map f)

@[simp] theorem Condition.renamed_bits (f : Bit → Bit) (condition : Condition) :
    (condition.renamed f).bits = condition.bits.map f := rfl

@[simp] theorem Condition.renamed_value (f : Bit → Bit) (condition : Condition) :
    (condition.renamed f).value = condition.value := rfl

/-- The command on other units, under its own condition or else under `guard`. -/
def Command.renamed (ρ : Renaming) (guard : Option Condition) (command : Command) : Command :=
  { command with
    qubits := command.qubits.map ρ.qubit
    bits := command.bits.map ρ.bit
    condition := (command.condition.map (Condition.renamed ρ.bit)).or guard }

/-- A condition inside a box that has one. -/
def Command.Nested (guard : Option Condition) (command : Command) : Prop :=
  command.condition.isSome ∧ guard.isSome

instance (guard : Option Condition) (command : Command) : Decidable (command.Nested guard) :=
  inferInstanceAs (Decidable (_ ∧ _))

theorem mapM_eq_ok_map {ε α β : Type} {f : α → Except ε β} {g : α → β} {as : List α}
    (h : ∀ a ∈ as, f a = .ok (g a)) : as.mapM f = .ok (as.map g) := by
  induction as with
  | nil => rfl
  | cons a as ih =>
    rw [List.mapM_cons, h a List.mem_cons_self, ih fun b hb => h b (List.mem_cons_of_mem a hb)]
    rfl

theorem renameAll_eq_ok_map {ε α : Type} {f : α → Except ε α} {g : α → α} {as : List α}
    (h : ∀ a ∈ as, f a = .ok (g a)) :
    renameAll f as = .ok ⟨as.map g, List.length_map g⟩ := by
  induction as with
  | nil => rfl
  | cons a as ih =>
    simp only [renameAll, h a List.mem_cons_self,
      ih fun b hb => h b (List.mem_cons_of_mem a hb)]
    rfl

/-! ### Commands of a box -/

/-- A box's circuit and the arguments of the box. -/
structure Boxed (body : Circuit) (qubits : List Qubit) (bits : List Bit) : Prop where
  qubits_length : qubits.length = body.qubits.length
  bits_length : bits.length = body.bits.length
  qubits_nodup : qubits.Nodup
  bits_nodup : bits.Nodup

theorem Command.Fits.boxed {command : Command} {qubits : List Qubit} {bits : List Bit}
    (h : command.Fits qubits bits) {id : Uuid} {body : Circuit} (hop : command.op = .box id body) :
    Boxed body command.qubits command.bits where
  qubits_length := by rw [h.qubit_count, hop]; rfl
  bits_length := by rw [h.bit_count, hop]; rfl
  qubits_nodup := h.qubits_nodup
  bits_nodup := h.written_nodup

namespace Boxed

variable {body : Circuit} {qubits : List Qubit} {bits : List Bit}

theorem wiring_qubit (h : Boxed body qubits bits) {q : Qubit} (hq : q ∈ body.qubits) :
    Wiring.qubit ⟨body.qubits.zip qubits, body.bits.zip bits⟩ q =
      .ok ((Renaming.ofBox body qubits bits).qubit q) :=
  rewired_zip h.qubits_length hq _

theorem wiring_bit (h : Boxed body qubits bits) {b : Bit} (hb : b ∈ body.bits) :
    Wiring.bit ⟨body.qubits.zip qubits, body.bits.zip bits⟩ b =
      .ok ((Renaming.ofBox body qubits bits).bit b) :=
  rewired_zip h.bits_length hb _

theorem wiring_mapBits (h : Boxed body qubits bits) {condition : Condition}
    (hc : ∀ b ∈ condition.bits, b ∈ body.bits) :
    condition.mapBits (Wiring.bit ⟨body.qubits.zip qubits, body.bits.zip bits⟩) =
      .ok (condition.renamed (Renaming.ofBox body qubits bits).bit) := by
  rw [Condition.mapBits, renameAll_eq_ok_map fun b hb => h.wiring_bit (hc b hb)]
  rfl

/-- A command that fits the circuit is renamed, unless it would have two conditions. -/
theorem wiring_command (h : Boxed body qubits bits) (guard : Option Condition)
    {command : Command} (hc : command.Fits body.qubits body.bits) :
    Wiring.command ⟨body.qubits.zip qubits, body.bits.zip bits⟩ guard command =
      if command.Nested guard then .error (.nestedCondition command.name)
      else .ok (command.renamed (.ofBox body qubits bits) guard) := by
  have hq := mapM_eq_ok_map fun q hq => h.wiring_qubit (hc.qubits_declared q hq)
  have hb := mapM_eq_ok_map fun b hb => h.wiring_bit (hc.written_declared b hb)
  obtain ⟨op, cqubits, cbits, condition, opgroup⟩ := command
  cases condition with
  | none =>
    have hn : ¬ Command.Nested guard ⟨op, cqubits, cbits, none, opgroup⟩ := by
      simp [Command.Nested]
    simp only [Wiring.command, Wiring.condition, hq, hb, if_neg hn, Command.renamed]
    rfl
  | some own =>
    cases guard with
    | some guard => simp [Wiring.command, Wiring.condition, Command.Nested, bind, Except.bind]
    | none =>
      have hn : ¬ Command.Nested none ⟨op, cqubits, cbits, some own, opgroup⟩ := by
        simp [Command.Nested]
      have hown := h.wiring_mapBits fun b hm => hc.bits_declared b (List.mem_append_left _ hm)
      simp only [Wiring.command, Wiring.condition, hown, hq, hb, if_neg hn, Command.renamed]
      rfl

theorem qubit_mem (h : Boxed body qubits bits) {q : Qubit} (hq : q ∈ body.qubits) :
    (Renaming.ofBox body qubits bits).qubit q ∈ qubits :=
  positional_mem h.qubits_length hq

theorem bit_mem (h : Boxed body qubits bits) {b : Bit} (hb : b ∈ body.bits) :
    (Renaming.ofBox body qubits bits).bit b ∈ bits :=
  positional_mem h.bits_length hb

theorem qubit_inj (h : Boxed body qubits bits) {q r : Qubit} (hq : q ∈ body.qubits)
    (hr : r ∈ body.qubits)
    (e : (Renaming.ofBox body qubits bits).qubit q = (Renaming.ofBox body qubits bits).qubit r) :
    q = r :=
  positional_inj h.qubits_length h.qubits_nodup hq hr e

theorem bit_inj (h : Boxed body qubits bits) {a b : Bit} (ha : a ∈ body.bits)
    (hb : b ∈ body.bits)
    (e : (Renaming.ofBox body qubits bits).bit a = (Renaming.ofBox body qubits bits).bit b) :
    a = b :=
  positional_inj h.bits_length h.bits_nodup ha hb e

end Boxed

/-- The bits of a renamed command: its own ones renamed, or those of the guard and the
renamed ones that it writes. -/
theorem Command.renamed_allBits (ρ : Renaming) (guard : Option Condition) (command : Command)
    (hn : ¬ command.Nested guard) :
    (command.renamed ρ guard).allBits =
      (guard.map Condition.bits).getD [] ++ command.allBits.map ρ.bit := by
  obtain ⟨op, cqubits, cbits, condition, opgroup⟩ := command
  cases condition with
  | none => cases guard <;> simp [renamed, allBits, conditionBits]
  | some own =>
    cases guard with
    | none => simp [renamed, allBits, conditionBits]
    | some guard => simp [Nested] at hn

/-- A command that fits the circuit of a box fits outside when it is renamed. The bits of
the box's condition differ from those that the box writes, so they stay apart. -/
theorem Command.Fits.renamed {outer command : Command} {qubits : List Qubit} {bits : List Bit}
    {id : Uuid} {body : Circuit} (ho : outer.Fits qubits bits) (hop : outer.op = .box id body)
    (hc : command.Fits body.qubits body.bits)
    (hn : ¬ command.Nested outer.condition) :
    (command.renamed (.ofBox body outer.qubits outer.bits) outer.condition).Fits qubits bits := by
  have hb := ho.boxed hop
  have hbits := Command.renamed_allBits (.ofBox body outer.qubits outer.bits) outer.condition
    command hn
  have hguard : (outer.condition.map Condition.bits).getD [] = outer.conditionBits := by
    unfold Command.conditionBits
    cases outer.condition <;> rfl
  rw [hguard] at hbits
  obtain ⟨hg, _, hdisjoint⟩ := List.nodup_append.1 ho.bits_nodup
  have hinner : ∀ b ∈ command.allBits.map (Renaming.ofBox body outer.qubits outer.bits).bit,
      b ∈ outer.bits := by
    intro b hm
    obtain ⟨a, ha, rfl⟩ := List.mem_map.1 hm
    exact hb.bit_mem (hc.bits_declared a ha)
  refine ⟨hc.admissible, ?_, ?_, fun q hm => ?_, ?_, fun b hm => ?_, ?_, fun g _ => g.bounds⟩
  · simpa [Command.renamed] using hc.qubit_count
  · simpa [Command.renamed] using hc.bit_count
  · obtain ⟨r, hr, rfl⟩ := List.mem_map.1 hm
    exact ho.qubits_declared _ (hb.qubit_mem (hc.qubits_declared r hr))
  · exact hc.qubits_nodup.map_on fun q hq r hr =>
      hb.qubit_inj (hc.qubits_declared q hq) (hc.qubits_declared r hr)
  · rw [hbits] at hm
    rcases List.mem_append.1 hm with hm | hm
    · exact ho.bits_declared b (List.mem_append_left _ hm)
    · exact ho.written_declared b (hinner b hm)
  · rw [hbits]
    refine List.Nodup.append hg ?_ fun b hm hm' => hdisjoint b hm b (hinner b hm') rfl
    exact hc.bits_nodup.map_on fun a ha b hb' =>
      hb.bit_inj (hc.bits_declared a ha) (hc.bits_declared b hb')

end QuantumCircuit
