import QuantumCircuit.Proofs.Guards
import QuantumCircuit.Proofs.Obstacles

/-! How emission ends. It gives a text, or it overflows, or it refuses the circuit, and what
decides is here said of the circuit itself and of its inlined commands. The checks come in a fixed
order: the permutation, inlining, the units with the qubits first, shared names, conditions. Of two
units without a place in a register the first one decides whether there is an overflow or a
refusal. That a command cannot be written at all is provided for and never happens, since inlined
commands fit the circuit and hold no box. -/

namespace QuantumCircuit.Qasm

/-! ### Commands -/

/-- A command that fits and is no box can be written. -/
theorem exists_actionOf {command : Command} {qubits : List Qubit} {bits : List Bit}
    (hfits : command.Fits qubits bits) (hbox : command.op.isBox = false) :
    ∃ a, actionOf command = .ok a := by
  have hadmissible := hfits.admissible
  have hcount := hfits.bit_count
  rw [actionOf]
  cases hop : command.op with
  | gate type =>
    rw [hop] at hadmissible
    have hname : (gateName? type).isSome := by
      have all : ∀ a ∈ OpType.all, a.isGate → (gateName? a).isSome := by decide
      exact all type type.mem_all hadmissible
    obtain ⟨name, hname⟩ := Option.isSome_iff_exists.1 hname
    exact ⟨.gate name command.qubits, by simp only [hname]⟩
  | measure =>
    rw [hop] at hcount
    obtain ⟨target, hbits⟩ := List.length_eq_one_iff.1 hcount
    exact ⟨.measure command.qubits target, by simp only [hbits]⟩
  | reset => exact ⟨_, rfl⟩
  | box id body => simp [hop, Operation.isBox] at hbox

theorem guardOf_eq_error {rs : List Register} {condition : Condition} {e : Refusal}
    (h : guardOf rs condition = .error e) : e = .unsupported (.partialRegister condition) := by
  rw [guardOf] at h
  split at h
  · cases h
  · dsimp only at h
    split_ifs at h
    cases h
    rfl

theorem exists_guardOf_iff {rs : List Register} (h : (rs.map Register.name).Nodup)
    {condition : Condition} :
    (∃ g, guardOf rs condition = .ok g) ↔
      condition.bits.length = 1 ∨ ∃ r ∈ rs, condition.bits = r.bits := by
  constructor
  · rintro ⟨g, hg⟩
    rcases guardOf_cases hg with ⟨b, hb, -⟩ | ⟨name, hcovers, -, -⟩
    · exact .inl (by rw [hb]; rfl)
    · obtain ⟨r, hr, -, hbits⟩ := (coversRegister_iff h).1 hcovers
      exact .inr ⟨r, hr, hbits⟩
  · rintro (hone | ⟨r, hr, hbits⟩)
    · obtain ⟨b, hb⟩ := List.length_eq_one_iff.1 hone
      exact ⟨.bit b condition.value, by simp [guardOf, hb]⟩
    · rw [guardOf]
      split
      next b hb => exact ⟨_, rfl⟩
      next =>
        -- the first bit tells the name of the register
        obtain ⟨b, bs, hcons⟩ := List.exists_cons_of_ne_nil condition.bits_ne_nil
        have hname : (condition.bits.head?.map fun b => b.id.register).getD "" = r.name := by
          rw [hcons]
          exact Register.register_of_mem_bits (hbits ▸ hcons ▸ List.mem_cons_self)
        have hcovers : coversRegister rs r.name condition.bits :=
          (coversRegister_iff h).2 ⟨r, hr, rfl, hbits⟩
        exact ⟨_, by simp only [hname, hcovers, if_true]; rfl⟩

end QuantumCircuit.Qasm

namespace QuantumCircuit

open Qasm

/-- The condition reads one bit, or all bits of one register of the circuit in index order. -/
def Circuit.CanGuard (c : Circuit) (condition : Condition) : Prop :=
  condition.bits.length = 1 ∨
    ∃ r : Register, r.Spans (c.bits.map Bit.id) ∧ condition.bits = r.bits

namespace Qasm

theorem Declares.exists_guardOf_iff {c : Circuit} {rs : List Register}
    (h : Declares (c.bits.map Bit.id) rs) {condition : Condition} :
    (∃ g, guardOf rs condition = .ok g) ↔ c.CanGuard condition := by
  rw [Qasm.exists_guardOf_iff h.names_nodup, Circuit.CanGuard]
  simp only [h.mem_iff_spans]

/-- Why a command that fits and is no box has no statement. -/
theorem statementOf_eq_error {c : Circuit} {rs : List Register}
    (h : Declares (c.bits.map Bit.id) rs) {command : Command}
    (hfits : command.Fits c.qubits c.bits) (hbox : command.op.isBox = false) {e : Refusal}
    (he : statementOf rs command = .error e) :
    ∃ condition ∈ command.condition, ¬ c.CanGuard condition ∧
      e = .unsupported (.partialRegister condition) := by
  obtain ⟨a, ha⟩ := exists_actionOf hfits hbox
  rw [statementOf] at he
  obtain haction | ⟨a, -, he⟩ := bind_eq_error_iff.1 he
  · rw [ha] at haction
    cases haction
  cases hcondition : command.condition with
  | none => rw [hcondition] at he; cases he
  | some condition =>
    rw [hcondition] at he
    have hguard : guardOf rs condition = .error e := by
      obtain hguard | ⟨g, -, hdone⟩ := bind_eq_error_iff.1 he
      · exact hguard
      · cases hdone
    refine ⟨condition, rfl, fun hcan => ?_, guardOf_eq_error hguard⟩
    obtain ⟨g, hg⟩ := h.exists_guardOf_iff.2 hcan
    rw [hguard] at hg
    cases hg

/-! ### Programs -/

theorem programOf_of_firstMisplaced {c : Circuit} {u : UnitId} {e : Refusal}
    (h : FirstMisplaced c.units u e) (commands : List Command) :
    programOf c commands = .error e := by
  rw [programOf, bind_eq_error_iff]
  obtain ⟨before, after, hunits, hbefore, he⟩ := h
  rcases List.append_eq_append_iff.1 hunits with ⟨rest, hq, hb⟩ | ⟨rest, hq, hb⟩
  · -- the unit is a bit
    subst hq
    obtain ⟨qubits, hqubits⟩ := exists_registersFrom
      (fun v hv => hbefore v (List.mem_append_left rest hv)) []
    have hbits : FirstMisplaced (c.bits.map Bit.id) u e :=
      ⟨rest, after, hb, fun v hv => hbefore v (List.mem_append_right _ hv), he⟩
    refine .inr ⟨qubits, hqubits, bind_eq_error_iff.2 (.inl (hbits.registersFrom []))⟩
  · cases rest with
    | nil =>
      -- the unit is the first bit
      rw [List.append_nil] at hq
      obtain ⟨qubits, hqubits⟩ := exists_registersFrom (hq ▸ hbefore) []
      have hbits : FirstMisplaced (c.bits.map Bit.id) u e := ⟨[], after, hb.symm, by simp, he⟩
      exact .inr ⟨qubits, hqubits, bind_eq_error_iff.2 (.inl (hbits.registersFrom []))⟩
    | cons v rest =>
      obtain ⟨rfl, -⟩ := List.cons.inj hb
      have hqubits : FirstMisplaced (c.qubits.map Qubit.id) u e := ⟨before, rest, hq, hbefore, he⟩
      exact .inl (hqubits.registersFrom [])

/-- What can go wrong once the registers are found. -/
theorem programOf_eq_error_of_registersOf {c : Circuit} {commands : List Command}
    {qubits bits : List Register} (hqubits : registersOf (c.qubits.map Qubit.id) = .ok qubits)
    (hbits : registersOf (c.bits.map Bit.id) = .ok bits) {e : Refusal}
    (h : programOf c commands = .error e) :
    (∃ q ∈ qubits, ∃ r ∈ bits, q.name = r.name ∧ e = .unsupported (.sharedName r.name)) ∨
      ∃ command ∈ commands, statementOf bits command = .error e := by
  rw [programOf, hqubits, hbits] at h
  obtain h | ⟨_, hok, h⟩ := bind_eq_error_iff.1 h
  · cases h
  cases hok
  obtain h | ⟨_, hok, h⟩ := bind_eq_error_iff.1 h
  · cases h
  cases hok
  split at h
  next r hr =>
    obtain ⟨q, hq, hname⟩ : ∃ q ∈ qubits, q.name = r.name := by simpa using List.find?_some hr
    cases h
    exact .inl ⟨q, hq, r, List.mem_of_find?_eq_some hr, hname, rfl⟩
  next =>
    obtain h | ⟨_, -, h⟩ := bind_eq_error_iff.1 h
    · exact .inr (exists_of_mapM_eq_error h)
    · cases h

/-- Why a circuit has no program, its boxes being inlined. -/
theorem programOf_eq_error {c : Circuit} {commands : List Command}
    (hfits : ∀ command ∈ commands, command.Fits c.qubits c.bits ∧ command.op.isBox = false)
    {e : Refusal} (h : programOf c commands = .error e) :
    (∃ u, FirstMisplaced c.units u e) ∨
    (∃ q ∈ c.qubits, ∃ b ∈ c.bits, q.id.register = b.id.register ∧
      e = .unsupported (.sharedName b.id.register)) ∨
    ∃ command ∈ commands, ∃ condition ∈ command.condition, ¬ c.CanGuard condition ∧
      e = .unsupported (.partialRegister condition) := by
  rcases all_addressable_or_first c.units with hunits | ⟨u, e', hu⟩
  · obtain ⟨hq, hb⟩ := List.forall_mem_append.1 hunits
    obtain ⟨qubits, hqubits⟩ := exists_registersFrom hq []
    obtain ⟨bits, hbits⟩ := exists_registersFrom hb []
    obtain ⟨q, hq, r, hr, hname, rfl⟩ | ⟨command, hm, he⟩ :=
      programOf_eq_error_of_registersOf hqubits hbits h
    · obtain ⟨i, hi, -⟩ := (Declares.of_registersOf hqubits).reached q hq
      obtain ⟨j, hj, -⟩ := (Declares.of_registersOf hbits).reached r hr
      obtain ⟨x, hx, hxi⟩ := List.mem_map.1 hi
      obtain ⟨y, hy, hyj⟩ := List.mem_map.1 hj
      exact .inr (.inl ⟨x, hx, y, hy, by rw [hxi, hyj, hname], by rw [hyj]⟩)
    · obtain ⟨hfit, hbox⟩ := hfits command hm
      exact .inr (.inr ⟨command, hm,
        statementOf_eq_error (Declares.of_registersOf hbits) hfit hbox he⟩)
  · rw [programOf_of_firstMisplaced hu] at h
    cases h
    exact .inl ⟨u, hu⟩

end Qasm

/-- The first unit without a place in a register has the last index there is. -/
def Circuit.Overflows (c : Circuit) : Prop :=
  ∃ before u after, c.units = before ++ u :: after ∧ (∀ v ∈ before, v.Addressable) ∧
    u.index = [4294967295]

/-- What emission refuses a circuit for, with the refusal. -/
inductive Refused (c : Circuit) : Refusal → Prop where
  | permutation (h : c.Permuting) : Refused c (.unsupported .permutation)
  | inlining {e : Error} (h : Build.inline.run c = .error e c) : Refused c (.circuit e)
  | overflow (hp : ¬ c.Permuting) (hrun : ∃ n c', Build.inline.run c = .ok n c')
      (h : c.Overflows) : Refused c (.overflow .pastLastIndex)
  | notSingleIndex {u : UnitId} (hu : u ∈ c.units) (h : ∀ i, u.index ≠ [i]) :
      Refused c (.unsupported (.notSingleIndex u))
  | sharedName {q : Qubit} {b : Bit} (hq : q ∈ c.qubits) (hb : b ∈ c.bits)
      (h : q.id.register = b.id.register) : Refused c (.unsupported (.sharedName b.id.register))
  | partialRegister {n : Nat} {c' : Circuit} (hrun : Build.inline.run c = .ok n c')
      {command : Command} (hm : command ∈ c'.commands) {condition : Condition}
      (hc : condition ∈ command.condition) (h : ¬ c.CanGuard condition) :
      Refused c (.unsupported (.partialRegister condition))

theorem emit_eq_error_iff {c : Circuit} {e : Refusal} :
    emit c = .error e ↔ program c = .error e := by
  rw [emit]
  cases program c <;> simp [Except.map]

theorem Circuit.Valid.refused {c : Circuit} (h : c.Valid) {e : Refusal}
    (he : emit c = .error e) : Refused c e := by
  rw [emit_eq_error_iff, program, hasIdentityPermutation] at he
  split_ifs at he with hp
  · rw [List.isEmpty_iff] at hp
    have hrun := Build.inline_run c
    cases hflat : c.inlined with
    | error cause =>
      rw [hflat] at he hrun
      cases he
      exact .inlining hrun
    | ok flat =>
      rw [hflat] at he hrun
      obtain ⟨u, before, after, hunits, hbefore, hu⟩ | ⟨q, hq, b, hb, hname, rfl⟩ |
        ⟨command, hm, condition, hc, hcan, rfl⟩ := programOf_eq_error (h.inlined_fits flat hflat) he
      · cases hu with
        | notSingle hu => exact .notSingleIndex (hunits ▸ by simp) hu
        | last hu =>
          refine .overflow (fun hmoves => h.permuting_iff.1 hmoves hp) ⟨_, _, hrun⟩ ?_
          exact ⟨before, u, after, hunits, hbefore, hu⟩
      · exact .sharedName hq hb hname
      · exact .partialRegister hrun hm hc hcan
  · cases he
    exact .permutation (h.permuting_iff.2 (by simpa using hp))

/-! ### Emission -/

theorem UnitId.LiesIn.addressable {u : UnitId} {r : Register} (h : u.LiesIn r) :
    u.Addressable := by
  obtain ⟨i, rfl, hi⟩ := h
  refine ⟨i, rfl, fun hlast => ?_⟩
  have hlt := UInt32.lt_iff_toNat_lt.1 hi
  have hsize := r.size.toNat_lt
  rw [eq_last_iff] at hlast
  omega

namespace Qasm.Translates

variable {c : Circuit} {commands : List Command} {p : Program}

theorem units_addressable (h : Translates c commands p) : ∀ u ∈ c.units, u.Addressable := by
  intro u hu
  rcases List.mem_append.1 hu with hu | hu
  · obtain ⟨r, -, hr⟩ := h.qubits.lies_in u hu
    exact hr.addressable
  · obtain ⟨r, -, hr⟩ := h.bits.lies_in u hu
    exact hr.addressable

theorem registers_ne (h : Translates c commands p) :
    ∀ q ∈ c.qubits, ∀ b ∈ c.bits, q.id.register ≠ b.id.register := by
  intro q hq b hb
  obtain ⟨r, hr, i, hi, -⟩ := h.qubits.lies_in q.id (List.mem_map_of_mem hq)
  obtain ⟨s, hs, j, hj, -⟩ := h.bits.lies_in b.id (List.mem_map_of_mem hb)
  rw [hi, hj]
  exact h.names_ne s hs r hr

theorem canGuard (h : Translates c commands p) {command : Command} (hm : command ∈ commands) :
    ∀ condition ∈ command.condition, c.CanGuard condition := by
  intro condition hc
  obtain ⟨s, -, hs⟩ := exists_of_mem_right h.statements.flip hm
  have hguard := (statementOf_eq_ok_iff.1 hs).2
  rw [Option.mem_def.1 hc] at hguard
  cases hg : s.guard with
  | none => rw [hg] at hguard; cases hguard
  | some g =>
    rw [hg] at hguard
    cases hguard with
    | some hguard => exact h.bits.exists_guardOf_iff.1 ⟨g, hguard⟩

end Qasm.Translates

theorem Build.inlined_of_run {c c' : Circuit} {n : Nat} (h : Build.inline.run c = .ok n c') :
    c.inlined = .ok c'.commands := by
  rw [Build.inline_run] at h
  cases hflat : c.inlined with
  | error e => rw [hflat] at h; cases h
  | ok flat =>
    rw [hflat] at h
    cases h
    rfl

namespace Circuit.Valid

variable {c c' : Circuit} {n : Nat}

theorem exists_emit (h : c.Valid) (hp : ¬ c.Permuting) (hrun : Build.inline.run c = .ok n c')
    (hguards : ∀ command ∈ c'.commands, ∀ condition ∈ command.condition, c.CanGuard condition)
    (hunits : ∀ u ∈ c.units, u.Addressable)
    (hnames : ∀ q ∈ c.qubits, ∀ b ∈ c.bits, q.id.register ≠ b.id.register) :
    ∃ text, emit c = .ok text := by
  cases hemit : emit c with
  | ok text => exact ⟨text, rfl⟩
  | error e =>
    -- none of the reasons to refuse is there
    cases h.refused hemit with
    | permutation hmoves => exact absurd hmoves hp
    | inlining hfail => rw [hrun] at hfail; cases hfail
    | overflow _ _ hlast =>
      obtain ⟨before, u, after, hsplit, -, hu⟩ := hlast
      obtain ⟨i, hi, hne⟩ := hunits u (by simp [hsplit])
      rw [hu] at hi
      cases hi
      exact absurd rfl hne
    | notSingleIndex hu hnot =>
      obtain ⟨i, hi, -⟩ := hunits _ hu
      exact absurd hi (hnot i)
    | sharedName hq hb hname => exact absurd hname (hnames _ hq _ hb)
    | partialRegister hrun' hm hc hcan =>
      rw [hrun] at hrun'
      cases hrun'
      exact absurd (hguards _ hm _ hc) hcan

theorem emit_overflows (h : c.Valid) (hp : ¬ c.Permuting) (hrun : Build.inline.run c = .ok n c')
    (hc : c.Overflows) : emit c = .error (.overflow .pastLastIndex) := by
  obtain ⟨before, u, after, hunits, hbefore, hu⟩ := hc
  have hnil : c.permutation = [] := not_not.1 (mt h.permuting_iff.2 hp)
  rw [emit_eq_error_iff, program, hasIdentityPermutation, hnil, Build.inlined_of_run hrun]
  exact programOf_of_firstMisplaced ⟨before, after, hunits, hbefore, .last hu⟩ c'.commands

/-- Inlined commands have the bits that emission looks at. -/
theorem inline_bits_pos (h : c.Valid) (hrun : Build.inline.run c = .ok n c') {command : Command}
    (hm : command ∈ c'.commands) : (command.op = .measure → 0 < command.bits.length) ∧
      ∀ condition ∈ command.condition, 0 < condition.bits.length := by
  have hfits := (h.inlined_fits _ (Build.inlined_of_run hrun) command hm).1
  constructor
  · intro hop
    rw [hfits.bit_count, hop]
    decide
  · intro condition hc
    exact (hfits.condition_bounds condition hc).1

end Circuit.Valid

/-- Emission succeeds exactly when the circuit does not permute, can be inlined to commands whose
conditions read one bit or a whole register, has one index below the last at each of its units,
and gives no name both to qubits and to bits. It overflows exactly when the circuit does not
permute, can be inlined, and has a unit with the last index before any with several or none.
Otherwise it refuses the circuit for one of five reasons; that the operation of a command is a
box or no gate, or that a bit to look at is missing, is none of them. -/
theorem Reachable.emit_outcome {c : Circuit} (h : Reachable c) :
    ((∃ text, emit c = .ok text) ↔
      ¬ c.Permuting ∧
      (∃ n c', Build.inline.run c = .ok n c' ∧
        ∀ command ∈ c'.commands, ∀ condition ∈ command.condition, c.CanGuard condition) ∧
      (∀ u ∈ c.units, u.Addressable) ∧
      ∀ q ∈ c.qubits, ∀ b ∈ c.bits, q.id.register ≠ b.id.register) ∧
    ((∃ o, emit c = .error (.overflow o)) ↔
      ¬ c.Permuting ∧ (∃ n c', Build.inline.run c = .ok n c') ∧ c.Overflows) ∧
    (∀ e, emit c = .error e → Refused c e) ∧
    (∀ type, emit c ≠ .error (.unsupported (.notAGate type)) ∧
      emit c ≠ .error (.circuit (.unsupportedOp (.notAGate type)))) ∧
    emit c ≠ .error (.unsupported .boxLeft) ∧ emit c ≠ .error (.unsupported .measureWithoutBit) ∧
    ∀ n c', Build.inline.run c = .ok n c' → ∀ command ∈ c'.commands,
      (command.op = .measure → 0 < command.bits.length) ∧
        ∀ condition ∈ command.condition, 0 < condition.bits.length := by
  refine ⟨⟨?_, ?_⟩, ⟨?_, ?_⟩, fun e => h.valid.refused, fun type => ⟨fun he => ?_, fun he => ?_⟩,
    fun he => ?_, fun he => ?_, fun n c' hrun command => h.valid.inline_bits_pos hrun⟩
  · rintro ⟨text, htext⟩
    obtain ⟨hp, -⟩ := emit_eq_ok_iff.1 htext
    obtain ⟨p, n, c', -, -, hrun, ht⟩ := exists_program h.valid htext
    refine ⟨fun hmoves => h.valid.permuting_iff.1 hmoves hp, ⟨n, c', hrun, ?_⟩, ?_⟩
    · exact fun command hm => ht.canGuard hm
    · exact ⟨ht.units_addressable, ht.registers_ne⟩
  · rintro ⟨hp, ⟨n, c', hrun, hguards⟩, hunits, hnames⟩
    exact h.valid.exists_emit hp hrun hguards hunits hnames
  · rintro ⟨o, ho⟩
    cases h.valid.refused ho with
    | overflow hp hrun hlast => exact ⟨hp, hrun, hlast⟩
  · rintro ⟨hp, ⟨n, c', hrun⟩, hlast⟩
    exact ⟨_, h.valid.emit_overflows hp hrun hlast⟩
  · cases h.valid.refused he
  · cases h.valid.refused he with
    | inlining hfail =>
      obtain ⟨_, _, _, _, hcause⟩ | ⟨_, _, _, hcause⟩ := h.valid.inline_error hfail
      · cases hcause
      · cases hcause
  · cases h.valid.refused he
  · cases h.valid.refused he

/-- A circuit with the last bit that a register name can have, and then a bit without an index. -/
def Circuit.lastBit : Circuit :=
  (Call.declareBit ⟨⟨"e", []⟩⟩).leaves
    ((Call.declareBit (.ofIndex 4294967295)).leaves (.withQubits 1))

theorem Reachable.lastBit : Reachable .lastBit :=
  .call _ (.call _ (.withQubits 1) fun body hb => by cases hb) fun body hb => by cases hb

/-- The last bit makes emission overflow, and the shuffled flip is emitted with a whole register for
its condition. -/
theorem Reachable.emit_outcome_lastBit :
    (∃ o, emit .lastBit = .error (.overflow o)) ∧
      (∃ text, emit .shuffledFlip = .ok text) ∧ Circuit.shuffledFlip.CanGuard .secondOnly := by
  have hstays : ¬ Circuit.lastBit.Permuting := fun ⟨q, _, hq⟩ => hq rfl
  have hlast : Circuit.lastBit.Overflows := by
    refine ⟨[⟨"q", [0]⟩], ⟨"c", [4294967295]⟩, [⟨"e", []⟩], rfl, fun v hv => ?_, rfl⟩
    obtain rfl := List.mem_singleton.1 hv
    exact ⟨0, rfl, by decide⟩
  have htext : ∃ text, emit .shuffledFlip = .ok text := ⟨_, rfl⟩
  obtain ⟨-, ⟨n, c', hrun, hguards⟩, -⟩ := Reachable.shuffledFlip.emit_outcome.1.1 htext
  refine ⟨Reachable.lastBit.emit_outcome.2.1.2 ⟨hstays, ⟨_, _, rfl⟩, hlast⟩, htext, ?_⟩
  cases hrun
  exact hguards _ List.mem_cons_self .secondOnly rfl

end QuantumCircuit
