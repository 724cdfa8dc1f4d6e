import QuantumCircuit.Proofs.Atomicity
import QuantumCircuit.Proofs.Messages
import QuantumCircuit.Proofs.Obstacles

/-! What is refused, and what the messages say of it. Calls, conditions, documents and programs are
refused for reasons in which an operation, if one is named, is named by its type. This is shown
on whatever circuits and documents, for calls from what an edit can be refused for, and by recursion
where boxes hold circuits. It follows that a message is about one unit at most, and a label belongs
to one unit only. -/

namespace QuantumCircuit

/-! ### Failing computations -/

section Fails

variable {ε α β : Type} {P : ε → Prop}

/-- The computation fails, if at all, with an error of that kind. -/
def FailsOnly (P : ε → Prop) (x : Except ε α) : Prop := ∀ e, x = .error e → P e

theorem FailsOnly.ok (a : α) : FailsOnly P (.ok a) := nofun

theorem FailsOnly.error {e : ε} (h : P e) : FailsOnly P (.error e : Except ε α) := by
  rintro _ ⟨⟩
  exact h

theorem FailsOnly.bind {x : Except ε α} {f : α → Except ε β} (hx : FailsOnly P x)
    (hf : ∀ a, FailsOnly P (f a)) : FailsOnly P (x >>= f) := by
  intro e he
  obtain he | ⟨a, -, he⟩ := bind_eq_error_iff.1 he
  · exact hx e he
  · exact hf a e he

theorem FailsOnly.map {x : Except ε α} (hx : FailsOnly P x) (f : α → β) :
    FailsOnly P (x.map f) := by
  cases x with
  | ok a => exact .ok (f a)
  | error e => exact .error (hx e rfl)

theorem FailsOnly.mapM {f : α → Except ε β} {as : List α} (hf : ∀ a ∈ as, FailsOnly P (f a)) :
    FailsOnly P (as.mapM f) := by
  intro e he
  obtain ⟨a, ha, he⟩ := exists_of_mapM_eq_error he
  exact hf a ha e he

end Fails

/-! ### Checks -/

theorem namesType_name (type : OpType) : NamesType (some type.name) := by
  rintro _ ⟨⟩
  exact ⟨type, rfl⟩

theorem namesType_none : NamesType none := nofun

theorem checkUnits_failsOnly {α : Type} [Ord α] [Std.TransOrd α] {P : Error → Prop}
    {missing repeated : α → Error} (hm : ∀ u, P (missing u)) (hr : ∀ u, P (repeated u))
    (declared seen : Std.ExtTreeSet α) (us : List α) :
    FailsOnly P (checkUnits declared missing repeated seen us) := by
  induction us generalizing seen with
  | nil => exact .ok ()
  | cons u us ih =>
    rw [checkUnits]
    split_ifs
    · exact .error (hr u)
    · exact ih _
    · exact .error (hm u)

theorem Circuit.check_failsOnly (c : Circuit) (command : Command) :
    FailsOnly Error.NamesTypes (c.check command) := by
  have hname : NamesType command.op.name := namesType_name command.op.type
  have hop : FailsOnly Error.NamesTypes command.op.check := by
    cases command.op with
    | gate type =>
      rw [Operation.check]
      split_ifs
      · exact .ok ()
      · exact .error trivial
    | _ => exact .ok ()
  -- the counts are compared first, and their refusals name no operation in parentheses
  by_cases hq : command.qubits.length = command.op.qubitCount
  · by_cases hb : command.bits.length = command.op.bitCount
    · simp only [check, hq, hb, ne_eq, not_true_eq_false, if_false]
      exact hop.bind fun _ => (checkUnits_failsOnly (fun _ => hname) (fun _ => hname) _ _ _).bind
        fun _ => checkUnits_failsOnly (fun _ => hname) (fun _ => hname) _ _ _
    · simp only [check, hq, hb, ne_eq, not_true_eq_false, not_false_eq_true, if_false, if_true]
      exact hop.bind fun _ => .error trivial
  · simp only [check, hq, ne_eq, not_false_eq_true, if_true]
    exact hop.bind fun _ => .error trivial

theorem checkPairs_failsOnly (declared sources targets : Std.ExtTreeSet Qubit)
    (pairs : List (Qubit × Qubit)) :
    FailsOnly Error.NamesTypes (checkPairs declared sources targets pairs) := by
  induction pairs generalizing sources targets with
  | nil => exact .ok ()
  | cons pair pairs ih =>
    obtain ⟨source, target⟩ := pair
    rw [checkPairs]
    split_ifs
    · exact .error trivial
    · exact .error trivial
    · exact ih _ _
    · exact .error namesType_none
    · exact .error namesType_none

theorem checkPermutation_failsOnly (declared : Std.ExtTreeSet Qubit)
    (pairs : List (Qubit × Qubit)) :
    FailsOnly Error.NamesTypes (checkPermutation declared pairs) := by
  rw [checkPermutation]
  refine (checkPairs_failsOnly declared ∅ ∅ pairs).bind fun _ => ?_
  dsimp only
  split
  · exact .error trivial
  · exact .ok ()

theorem Condition.make_failsOnly (bits : List Bit) (value : UInt64) :
    FailsOnly Error.NamesTypes (Condition.make bits value) := by
  rw [make]
  split_ifs
  · exact .error trivial
  · exact .ok _
  · exact .error trivial
  · exact .error trivial

/-! ### Inlining -/

theorem renameAll_failsOnly {α : Type} {P : Error → Prop} {rename : α → Except Error α}
    (h : ∀ a, FailsOnly P (rename a)) (as : List α) : FailsOnly P (renameAll rename as) := by
  induction as with
  | nil => exact .ok _
  | cons a as ih =>
    rw [renameAll]
    cases hrename : rename a with
    | error e => exact .error (h a e hrename)
    | ok b =>
      cases hrest : renameAll rename as with
      | error e => exact .error (ih e hrest)
      | ok bs => exact .ok _

theorem rewired_failsOnly {α : Type} [DecidableEq α] {P : Error → Prop}
    {missing : α → Option String → Error} (h : ∀ a, P (missing a (some OpType.circBox.name)))
    (pairs : List (α × α)) (a : α) : FailsOnly P (rewired pairs missing a) := by
  rw [rewired]
  cases pairs.lookup a with
  | some b => exact .ok b
  | none => exact .error (h a)

namespace Wiring

theorem qubit_failsOnly (w : Wiring) (q : Qubit) : FailsOnly Error.NamesTypes (w.qubit q) :=
  rewired_failsOnly (fun _ => namesType_name .circBox) w.qubits q

theorem bit_failsOnly (w : Wiring) (b : Bit) : FailsOnly Error.NamesTypes (w.bit b) :=
  rewired_failsOnly (fun _ => namesType_name .circBox) w.bits b

theorem mapBits_failsOnly (w : Wiring) (condition : Condition) :
    FailsOnly Error.NamesTypes (condition.mapBits w.bit) := by
  rw [Condition.mapBits]
  cases hbits : renameAll w.bit condition.bits with
  | error e => exact .error (renameAll_failsOnly w.bit_failsOnly _ e hbits)
  | ok bits => exact .ok _

theorem condition_failsOnly (w : Wiring) (guard : Option Condition) (command : Command) :
    FailsOnly Error.NamesTypes (w.condition guard command) := by
  unfold condition
  split
  · exact .error trivial
  · exact (w.mapBits_failsOnly _).map some
  · exact .ok _

theorem command_failsOnly (w : Wiring) (guard : Option Condition) (command : Command) :
    FailsOnly Error.NamesTypes (w.command guard command) := by
  refine (w.condition_failsOnly guard command).bind fun _ => ?_
  refine (FailsOnly.mapM fun q _ => w.qubit_failsOnly q).bind fun _ => ?_
  exact (FailsOnly.mapM fun b _ => w.bit_failsOnly b).bind fun _ => .ok _

end Wiring

mutual

theorem Circuit.inlined_failsOnly : (c : Circuit) → FailsOnly Error.NamesTypes c.inlined
  | ⟨_, _, _, _, commands, _, _, _⟩ => by
    rw [Circuit.inlined]
    exact inlineAll_failsOnly commands

theorem inlineAll_failsOnly :
    (commands : List Command) → FailsOnly Error.NamesTypes (inlineAll commands)
  | [] => by
    rw [inlineAll]
    exact .ok []
  | command :: commands => by
    rw [inlineAll]
    exact (Command.inlined_failsOnly command).bind fun _ =>
      (inlineAll_failsOnly commands).bind fun _ => .ok _

theorem Command.inlined_failsOnly :
    (command : Command) → FailsOnly Error.NamesTypes command.inlined
  | ⟨.box id body, qubits, bits, condition, opgroup⟩ => by
    rw [Command.inlined]
    split_ifs
    · exact (Circuit.inlined_failsOnly body).bind fun _ =>
        FailsOnly.mapM fun command _ => Wiring.command_failsOnly _ _ command
    · exact .error trivial
  | ⟨.gate type, qubits, bits, condition, opgroup⟩ => by
    rw [Command.inlined_of_not_box rfl]
    exact .ok _
  | ⟨.measure, qubits, bits, condition, opgroup⟩ => by
    rw [Command.inlined_of_not_box rfl]
    exact .ok _
  | ⟨.reset, qubits, bits, condition, opgroup⟩ => by
    rw [Command.inlined_of_not_box rfl]
    exact .ok _

end

/-! ### Calls -/

theorem Kind.Clash.namesTypes {α : Type} [Ord α] [Std.TransOrd α] {k : Kind α} {us : List α}
    {c : Circuit} {e : Error} (h : k.Clash us c e) : e.NamesTypes := by
  cases h <;> trivial

/-- Edits are refused for reasons in which types are named. -/
theorem Edit.Refused.namesTypes {edit : Edit} {c : Circuit} {e : Error} (h : edit.Refused c e) :
    e.NamesTypes := by
  cases edit with
  | qubits new => exact Kind.Clash.namesTypes h
  | bits new => exact Kind.Clash.namesTypes h
  | command added => exact c.check_failsOnly added e h
  | permutation pairs => exact checkPermutation_failsOnly c.qubitSet pairs e h
  | inlining => exact c.inlined_failsOnly e h
  | name | phase => exact h.elim

namespace Build

/-- The action is refused, if at all, for a reason in which types are named. -/
def NamesTypes {α : Type} (action : Build α) : Prop :=
  ∀ ⦃c c' : Circuit⦄ ⦃e : Error⦄, action.run c = .error e c' → e.NamesTypes

theorem Does.namesTypes {α : Type} {action : Build α} {edit : Edit} (h : action.Makes edit) :
    action.NamesTypes :=
  fun _ _ _ hrun => (h.of_error hrun).2.namesTypes

theorem NamesTypes.bind {α β : Type} {action : Build α} {next : α → Build β}
    (h : NamesTypes action) (hnext : ∀ a, NamesTypes (next a)) : NamesTypes (action >>= next) := by
  intro c c' e hrun
  rw [EStateM.run_bind] at hrun
  cases hc : action.run c with
  | ok a d => rw [hc] at hrun; exact hnext a hrun
  | error e d => rw [hc] at hrun; cases hrun; exact h hc

theorem ofExcept_namesTypes {α : Type} {x : Except Error α} (h : FailsOnly Error.NamesTypes x) :
    NamesTypes (ofExcept x) := by
  intro c c' e hrun
  cases x with
  | ok a => cases hrun
  | error e => cases hrun; exact h e rfl

end Build

/-! ### Documents -/

theorem Circuit.built_failsOnly {α : Type} {action : Build α} (h : action.NamesTypes)
    (c : Circuit) : FailsOnly Error.NamesTypes (c.built action) := by
  rw [built]
  cases hrun : action.run c with
  | ok a d => exact .ok d
  | error e d => exact .error (h hrun)

theorem Command.ofArgs_failsOnly (args : List UnitId) (guard : Option (Nat × UInt64))
    (op : Operation) (opgroup : Option String) :
    FailsOnly Error.NamesTypes (Command.ofArgs args guard op opgroup) := by
  cases guard with
  | none =>
    rw [ofArgs_none]
    split_ifs
    · exact .ok _
    · exact .error (namesType_name op.type)
  | some guard =>
    rw [ofArgs_some]
    split_ifs
    · exact (Condition.make_failsOnly _ _).map _
    · exact .error (namesType_name op.type)

mutual

theorem Document.load_failsOnly : (d : Document) → FailsOnly Error.NamesTypes d.load
  | ⟨bits, commands, permutation, name, phase, qubits⟩ => by
    rw [Document.load]
    apply Circuit.built_failsOnly
    exact (Build.declareQubits_makes _).namesTypes.bind fun _ =>
      (Build.declareBits_makes _).namesTypes.bind fun _ =>
        (Document.loadCommands_namesTypes commands).bind fun _ =>
          (Build.setPermutation_makes _).namesTypes

theorem Document.loadCommands_namesTypes :
    (commands : List Document.Command) → (Document.loadCommands commands).NamesTypes
  | [] => by
    rw [Document.loadCommands]
    nofun
  | command :: commands => by
    rw [Document.loadCommands]
    have hload := Build.ofExcept_namesTypes (Document.Command.load_failsOnly command)
    exact hload.bind fun d => (Build.add_makes d).namesTypes.bind fun _ =>
      Document.loadCommands_namesTypes commands

theorem Document.Command.load_failsOnly :
    (command : Document.Command) → FailsOnly Error.NamesTypes command.load
  | ⟨args, ⟨box, none, type⟩, opgroup⟩ => by
    by_cases ht : type = .conditional
    · subst ht
      rw [Document.Command.load]
      exact .error trivial
    · rw [Document.Command.load_of_type_ne ht]
      exact (Document.Op.load_failsOnly ⟨box, none, type⟩).bind fun _ =>
        Command.ofArgs_failsOnly _ _ _ _
  | ⟨args, ⟨box, some ⟨op, value, width⟩, type⟩, opgroup⟩ => by
    by_cases ht : type = .conditional
    · subst ht
      rw [Document.Command.load]
      exact (Document.Op.load_failsOnly op).bind fun _ => Command.ofArgs_failsOnly _ _ _ _
    · rw [Document.Command.load_of_type_ne ht]
      exact (Document.Op.load_failsOnly ⟨box, some ⟨op, value, width⟩, type⟩).bind fun _ =>
        Command.ofArgs_failsOnly _ _ _ _

theorem Document.Op.load_failsOnly :
    (op : Document.Op) → FailsOnly Error.NamesTypes op.load
  | ⟨none, conditional, type⟩ => by
    cases type with
    | circBox => rw [Document.Op.load]; exact .error trivial
    | conditional => rw [Document.Op.load]; exact .error trivial
    | _ =>
      rw [Document.Op.load_plain (by simp) (by simp)]
      exact .ok _
  | ⟨some ⟨circuit, id, boxType⟩, conditional, type⟩ => by
    cases type with
    | circBox =>
      rw [Document.Op.load]
      split_ifs
      · exact (Document.load_failsOnly circuit).bind fun _ => .ok _
      · exact .error trivial
    | conditional => rw [Document.Op.load]; exact .error trivial
    | _ =>
      rw [Document.Op.load_plain (by simp) (by simp)]
      exact .ok _

end

theorem Circuit.ofReading_failsOnly (r : Json.Reading Document) :
    FailsOnly Error.NamesTypes (Circuit.ofReading r) := by
  cases r with
  | ok d => exact d.load_failsOnly
  | error f => exact .error trivial

/-! ### Programs -/

namespace Qasm

theorem registersFrom_failsOnly (found : List Register) (us : List UnitId) :
    FailsOnly Refusal.NamesTypes (registersFrom found us) := by
  induction us generalizing found with
  | nil => exact .ok found
  | cons u us ih =>
    rw [registersFrom]
    split
    · exact .error trivial
    · split
      · exact .error trivial
      · exact ih _

theorem actionOf_failsOnly (command : Command) :
    FailsOnly Refusal.NamesTypes (actionOf command) := by
  rw [actionOf]
  split
  · split
    · exact .ok _
    · exact .error trivial
  · split
    · exact .ok _
    · exact .error trivial
  · exact .ok _
  · exact .error trivial

theorem guardOf_failsOnly (registers : List Register) (condition : Condition) :
    FailsOnly Refusal.NamesTypes (guardOf registers condition) := by
  rw [guardOf]
  split
  · exact .ok _
  · dsimp only
    split_ifs
    · exact .ok _
    · exact .error trivial

theorem statementOf_failsOnly (registers : List Register) (command : Command) :
    FailsOnly Refusal.NamesTypes (statementOf registers command) := by
  refine (actionOf_failsOnly command).bind fun _ => ?_
  split
  · exact .ok _
  · exact (guardOf_failsOnly registers _).bind fun _ => .ok _

theorem programOf_failsOnly (c : Circuit) (commands : List Command) :
    FailsOnly Refusal.NamesTypes (programOf c commands) := by
  refine (registersFrom_failsOnly [] _).bind fun qubits => ?_
  refine (registersFrom_failsOnly [] _).bind fun bits => ?_
  split
  · exact .error trivial
  · exact (FailsOnly.mapM fun command _ => statementOf_failsOnly bits command).bind fun _ => .ok _

theorem emit_failsOnly (c : Circuit) : FailsOnly Refusal.NamesTypes (emit c) := by
  refine FailsOnly.map ?_ Program.text
  rw [program]
  split_ifs
  · cases hflat : c.inlined with
    | error e => exact .error (c.inlined_failsOnly e hflat)
    | ok commands => exact programOf_failsOnly c commands
  · exact .error trivial

end Qasm

/-! ### What messages identify -/

/-- The library gives this message, and it is about this unit, or about none. -/
inductive Given : String → Option UnitId → Prop
  | call (call : Call) {c c' : Circuit} {e : Error} (h : call.action.run c = .error e c') :
      Given e.message e.unit?
  | condition {bits : List Bit} {value : UInt64} {e : Error}
      (h : Condition.make bits value = .error e) : Given e.message e.unit?
  | load {d : Document} {e : Error} (h : d.load = .error e) : Given e.message e.unit?
  | ofText {text : String} {e : Error} (h : Circuit.ofText text = .error e) :
      Given e.message e.unit?
  | ofValue {value : Json} {e : Error} (h : Circuit.ofValue value = .error e) :
      Given e.message e.unit?
  | emit {c : Circuit} {r : Qasm.Refusal} (h : Qasm.emit c = .error r) : Given r.message r.unit?

theorem Given.led {message : String} {u : Option UnitId} (h : Given message u) :
    Message.led (Message.errorTable ++ Message.refusalTable) message u := by
  have herror : ∀ e : Error, e.NamesTypes →
      Message.led (Message.errorTable ++ Message.refusalTable) e.message e.unit? := fun e he =>
    Message.led_mono (List.subset_append_left _ _) (Error.led_message he)
  cases h with
  | call call h => exact herror _ (call.action_makes.namesTypes h)
  | condition h => exact herror _ (Condition.make_failsOnly _ _ _ h)
  | load h => exact herror _ (Document.load_failsOnly _ _ h)
  | ofText h => exact herror _ (Circuit.ofReading_failsOnly _ _ h)
  | ofValue h => exact herror _ (Circuit.ofReading_failsOnly _ _ h)
  | emit h =>
    exact Message.led_mono (List.subset_append_right _ _)
      (Qasm.Refusal.led_message (Qasm.emit_failsOnly _ _ h))

/-- Units with the same label have the same name and the same indices, whatever the name may be. A
message that the library gives is about one unit at most. Operands that are written alike, one by
one, are the same; and a statement or a guard that is written alike with one operand replaced has
the same operand in that place. -/
theorem UnitId.label_identifies :
    (∀ u v : UnitId, u.label = v.label → u.register = v.register ∧ u.index = v.index) ∧
    (∀ message u v, Given message u → Given message v → u = v) ∧
    (∀ qs rs : List Qubit, qs.map Qubit.label = rs.map Qubit.label → qs = rs) ∧
    (∀ bs ds : List Bit, bs.map Bit.label = ds.map Bit.label → bs = ds) ∧
    (∀ (a : Qasm.Action) (before after : List Qubit) (q r : Qubit),
      (a.on (before ++ q :: after)).text = (a.on (before ++ r :: after)).text → q = r) ∧
    (∀ (qs : List Qubit) (b d : Bit),
      (Qasm.Action.measure qs b).text = (Qasm.Action.measure qs d).text → b = d) ∧
    ∀ (value : UInt64) (b d : Bit),
      (Qasm.Guard.bit b value).text = (Qasm.Guard.bit d value).text → b = d := by
  refine ⟨fun u v h => ?_, fun message u v hu hv => ?_, ?_, ?_, ?_, ?_, ?_⟩
  · rw [UnitId.label_injective h]
    exact ⟨rfl, rfl⟩
  · exact Message.led_tables_certain hu.led hv.led
  · exact Qubit.label_injective.list_map
  · exact Bit.label_injective.list_map
  · exact fun a before after q r => a.operand_inj before after
  · exact fun qs b d => Qasm.Action.target_inj qs
  · exact fun value b d => Qasm.Guard.bit_inj value

/-- A unit that looks like two. -/
def UnitId.twofold : UnitId := ⟨"a[0], b", [1, 20]⟩

/-- A document that declares the same qubit twice. -/
def Document.twofold : Document := ⟨[], [], [], none, "0.0", [.twofold, .twofold]⟩

/-- The unit is declared twice, by calls and in a document. Both refusals have the same message,
and it is about the same unit. -/
theorem UnitId.label_identifies_twofold :
    (∃ e c' e', (Call.declareQubit ⟨.twofold⟩).action.run
        ((Call.declareQubit ⟨.twofold⟩).leaves .empty) = .error e c' ∧
      Document.twofold.load = .error e' ∧
      e.message = "Unit a[0], b[1, 20] is already declared in circuit" ∧
      e'.message = e.message ∧ e.unit? = some .twofold ∧ e.unit? = e'.unit?) ∧
    UnitId.twofold.register = "a[0]" ++ ", b" ∧
    [Qubit.mk .twofold] = [⟨⟨"a[0]" ++ ", b", [1, 2 * 10]⟩⟩] ∧
    [Bit.mk .twofold] = [⟨⟨"a[0]" ++ ", b", [1, 2 * 10]⟩⟩] ∧
    Qubit.mk .twofold = ⟨⟨"a[0]" ++ ", b", [1, 2 * 10]⟩⟩ ∧
    Bit.mk .twofold = ⟨⟨"a[0]" ++ ", b", [1, 2 * 10]⟩⟩ := by
  obtain ⟨hlabel, hgiven, hqubits, hbits, hoperand, htarget, -⟩ := UnitId.label_identifies
  have hcall : (Call.declareQubit ⟨.twofold⟩).action.run
      ((Call.declareQubit ⟨.twofold⟩).leaves .empty) = .error (.duplicateUnit .twofold) _ := rfl
  have hload : Document.twofold.load = .error (.duplicateUnit .twofold) := rfl
  refine ⟨⟨_, _, _, hcall, hload, rfl, rfl, rfl, ?_⟩, ?_, ?_, ?_, ?_, ?_⟩
  · exact hgiven _ _ _ (.call _ hcall) (.load hload)
  · exact (hlabel .twofold ⟨"a[0]" ++ ", b", [1, 2 * 10]⟩ rfl).1
  · exact hqubits _ _ rfl
  · exact hbits _ _ rfl
  · exact hoperand (.gate "cx" []) [.ofIndex 0] [] _ _ rfl
  · exact htarget [.ofIndex 0] _ _ rfl

end QuantumCircuit
