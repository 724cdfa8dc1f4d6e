import QuantumCircuit.Proofs.NormalForm

/-! Which documents describe a circuit. Loading makes its checks one after the other and stops
at the first that fails; units are looked up in what has been built so far, and the circuit in a
box is loaded before the arguments of the box are counted. Whether some check fails does not
depend on that order. A document is accepted exactly when its units are distinct, its commands
fit their operations and these units, the pairs of its permutation have the same qubits on both
sides, and the circuits in its boxes are accepted in turn. Payloads that no type selects are not
looked at, whatever they hold. -/

namespace QuantumCircuit

namespace Document

/-! ### Valid documents -/

namespace Op

/-- The condition of a guarded operation. -/
def guard? (op : Op) : Option Conditional := if op.type = .conditional then op.conditional else none

/-- The box of an operation whose type asks for one. -/
def box? (op : Op) : Option Box := if op.type = .circBox then op.box else none

/-- The operation that is carried out: the one inside the condition, if there is one. -/
def core (op : Op) : Op := op.guard?.elim op Conditional.op

/-- How many bits the condition reads. -/
def width (op : Op) : Nat := op.guard?.elim 0 fun guard => guard.width.toNat

def qubitCount (op : Op) : Nat :=
  op.box?.elim (op.type.qubitArity.getD 0) fun box => box.circuit.qubits.length

def bitCount (op : Op) : Nat :=
  op.box?.elim (op.type.bitArity.getD 0) fun box => box.circuit.bits.length

end Op

namespace Command

/-- The arguments behind those of the condition, as many as the operation takes qubits. -/
def qubitArgs (c : Command) : List UnitId := (c.args.drop c.op.width).take c.op.core.qubitCount

/-- The arguments that are bits: those of the condition, then those that are written. -/
def bitArgs (c : Command) : List UnitId :=
  c.args.take c.op.width ++ c.args.drop (c.op.width + c.op.core.qubitCount)

/-- The command has the payloads that its types ask for, and fits them and the units declared
around it. The circuit inside a box is not looked into. -/
structure Fits (c : Command) (qubits bits : List UnitId) : Prop where
  guard : c.op.type = .conditional → ∃ guard, c.op.conditional = some guard ∧
    guard.op.type ≠ .conditional ∧ 1 ≤ guard.width.toNat ∧ guard.width.toNat ≤ 64 ∧
      guard.value.toNat < 2 ^ guard.width.toNat
  box : c.op.core.type = .circBox → ∃ box, c.op.core.box = some box ∧ box.type = .circBox
  arg_count : c.args.length = c.op.width + c.op.core.qubitCount + c.op.core.bitCount
  qubits_declared : ∀ u ∈ c.qubitArgs, u ∈ qubits
  qubits_nodup : c.qubitArgs.Nodup
  bits_declared : ∀ u ∈ c.bitArgs, u ∈ bits
  bits_nodup : c.bitArgs.Nodup

end Command

/-- A document is valid when its own parts are and the circuits in its boxes are valid. -/
inductive Valid : Document → Prop where
  | intro {d : Document} (qubits_nodup : d.qubits.Nodup) (bits_nodup : d.bits.Nodup)
      (fits : ∀ c ∈ d.commands, c.Fits d.qubits d.bits)
      (bodies : ∀ c ∈ d.commands, ∀ box, c.op.core.box? = some box → box.circuit.Valid)
      (pairs : Bijection d.qubits d.permutation) : d.Valid

theorem valid_iff {d : Document} : d.Valid ↔ d.qubits.Nodup ∧ d.bits.Nodup ∧
    (∀ c ∈ d.commands, c.Fits d.qubits d.bits ∧
      ∀ box, c.op.core.box? = some box → box.circuit.Valid) ∧
    Bijection d.qubits d.permutation := by
  constructor
  · rintro ⟨hq, hb, hfits, hbodies, hpairs⟩
    exact ⟨hq, hb, fun c hc => ⟨hfits c hc, hbodies c hc⟩, hpairs⟩
  · rintro ⟨hq, hb, hcommands, hpairs⟩
    exact ⟨hq, hb, fun c hc => (hcommands c hc).1, fun c hc => (hcommands c hc).2, hpairs⟩

/-! ### Induction on boxes -/

theorem Op.sizeOf_core_le (op : Op) : sizeOf op.core ≤ sizeOf op := by
  obtain ⟨box, conditional, type⟩ := op
  cases conditional with
  | none => by_cases ht : type = .conditional <;> simp [core, guard?, ht]
  | some guard =>
    obtain ⟨inner, value, width⟩ := guard
    by_cases ht : type = .conditional
    · simp only [core, guard?, ht, if_true, Option.elim_some, Op.mk.sizeOf_spec,
        Option.some.sizeOf_spec, Conditional.mk.sizeOf_spec]
      omega
    · simp [core, guard?, ht]

theorem Op.sizeOf_circuit_lt {op : Op} {box : Box} (h : op.box? = some box) :
    sizeOf box.circuit < sizeOf op := by
  obtain ⟨box', conditional, type⟩ := op
  obtain ⟨circuit, id, boxType⟩ := box
  simp only [box?] at h
  split_ifs at h
  simp only [h, Op.mk.sizeOf_spec, Option.some.sizeOf_spec, Box.mk.sizeOf_spec]
  omega

theorem sizeOf_body_lt {d : Document} {c : Command} (hc : c ∈ d.commands) {box : Box}
    (hbox : c.op.core.box? = some box) : sizeOf box.circuit < sizeOf d := by
  have hcore := Nat.lt_of_lt_of_le (Op.sizeOf_circuit_lt hbox) c.op.sizeOf_core_le
  have hmem := List.sizeOf_lt_of_mem hc
  obtain ⟨args, op, opgroup⟩ := c
  obtain ⟨bits, commands, permutation, name, phase, qubits⟩ := d
  simp only [Command.mk.sizeOf_spec, Document.mk.sizeOf_spec] at hmem hcore ⊢
  omega

/-- What holds of a document if it holds of the circuits in its boxes holds of all. -/
theorem box_induction {P : Document → Prop} (step : ∀ d : Document,
    (∀ c ∈ d.commands, ∀ box, c.op.core.box? = some box → P box.circuit) → P d)
    (d : Document) : P d :=
  step d fun _ hc box hbox =>
    have := sizeOf_body_lt hc hbox
    box_induction step box.circuit
termination_by sizeOf d

/-! ### Operations -/

theorem Op.load_conditional (op : Op) (h : op.type = .conditional) :
    op.load = .error (.unsupportedOp .conditionalInConditional) := by
  obtain ⟨box, conditional, type⟩ := op
  cases h
  cases box <;> rw [Op.load]

/-- An operation is a box, of a circuit that can be loaded, or what its type says. -/
theorem Op.load_eq_ok_iff {op : Op} {op' : Operation} : op.load = .ok op' ↔
    (∃ box body, op.box? = some box ∧ box.type = .circBox ∧ box.circuit.load = .ok body ∧
      op' = .box box.id body) ∨
    op.type ≠ .circBox ∧ op.type ≠ .conditional ∧ op' = .ofType op.type := by
  by_cases hcond : op.type = .conditional
  · simp [op.load_conditional hcond, hcond, box?]
  obtain ⟨box, conditional, type⟩ := op
  by_cases hbox : type = .circBox
  · subst hbox
    cases box with
    | none => simp [Op.load, box?]
    | some box =>
      obtain ⟨circuit, id, boxType⟩ := box
      by_cases hb : boxType = .circBox
      · rw [Op.load, if_pos hb]
        cases hbody : circuit.load <;>
          simp [box?, hb, hbody, bind, Except.bind, pure, Except.pure, eq_comm]
      · simp [Op.load, box?, hb]
  · rw [Op.load_plain hbox hcond]
    simp [box?, hbox, hcond, eq_comm]

theorem load_lengths {d : Document} {c : Circuit} (h : d.load = .ok c) :
    c.qubits.length = d.qubits.length ∧ c.bits.length = d.bits.length := by
  obtain ⟨-, -, -, commands, -, -, rfl⟩ := Document.load_eq_ok_iff.1 h
  simp [Circuit.ofUnits]

theorem Op.load_arity {op : Op} {op' : Operation} (h : op.load = .ok op') :
    op'.Admissible ∧ op'.qubitCount = op.qubitCount ∧ op'.bitCount = op.bitCount := by
  rcases Op.load_eq_ok_iff.1 h with ⟨box, body, hbox, -, hload, rfl⟩ | ⟨hb, hc, rfl⟩
  · obtain ⟨hq, hb⟩ := load_lengths hload
    simp [Operation.Admissible, Operation.qubitCount, Operation.bitCount, qubitCount, bitCount,
      hbox, hq, hb]
  · have hnone : op.box? = none := if_neg hb
    simp only [qubitCount, bitCount, hnone, Option.elim_none]
    cases ht : op.type with
    | circBox => exact absurd ht hb
    | conditional => exact absurd ht hc
    | _ => exact ⟨by trivial, rfl, rfl⟩

/-- An operation can be loaded when it is not guarded once more and has the box that its type
asks for, with a circuit that can be loaded. -/
theorem Op.exists_load_iff {op : Op} : (∃ op', op.load = .ok op') ↔ op.type ≠ .conditional ∧
    (op.type = .circBox → ∃ box, op.box = some box ∧ box.type = .circBox) ∧
    ∀ box, op.box? = some box → ∃ body, box.circuit.load = .ok body := by
  simp only [Op.load_eq_ok_iff]
  by_cases hb : op.type = .circBox
  · have hsome : op.box? = op.box := if_pos hb
    simp only [hsome, hb]
    cases op.box <;> simp
  · have hnone : op.box? = none := if_neg hb
    simp [hnone, hb]

end Document

/-! ### Arguments -/

/-- Bits and a value make a condition when there are one to 64 bits and the value fits. -/
theorem Condition.exists_iff (bits : List Bit) (value : UInt64) :
    (∃ condition : Condition, condition.bits = bits ∧ condition.value = value) ↔
      1 ≤ bits.length ∧ bits.length ≤ 64 ∧ value.toNat < 2 ^ bits.length := by
  constructor
  · rintro ⟨condition, rfl, rfl⟩
    exact condition.bounds
  · rintro ⟨hpos, hle, hlt⟩
    exact ⟨⟨bits, value, List.ne_nil_of_length_pos hpos, hle, by rwa [Nat.one_shiftLeft]⟩, rfl, rfl⟩

theorem Condition.make_eq_ok_iff {bits : List Bit} {value : UInt64} {condition : Condition} :
    Condition.make bits value = .ok condition ↔
      condition.bits = bits ∧ condition.value = value := by
  constructor
  · exact Condition.make_eq_ok
  · rintro ⟨rfl, rfl⟩
    exact condition.make_self

namespace Command

variable {args : List UnitId} {guard : Option (Nat × UInt64)} {op : Operation}
  {opgroup : Option String} {command : Command}

/-- How many arguments stand in front for the condition. -/
def guardWidth (guard : Option (Nat × UInt64)) : Nat := (guard.map Prod.fst).getD 0

/-- The condition reads the first arguments, as many as the guard says, and compares them with
its value; without a guard there is no condition. -/
def Heeds (args : List UnitId) (guard : Option (Nat × UInt64)) (condition : Option Condition) :
    Prop :=
  condition.map Condition.value = guard.map Prod.snd ∧
    ∀ c ∈ condition, c.bits = (args.take (guardWidth guard)).map Bit.mk

/-- Arguments are split when their number is right and the guard makes a condition. -/
theorem ofArgs_eq_ok_iff : Command.ofArgs args guard op opgroup = .ok command ↔
    args.length = guardWidth guard + op.qubitCount + op.bitCount ∧
      ∃ condition, Heeds args guard condition ∧ command =
        ⟨op, ((args.drop (guardWidth guard)).take op.qubitCount).map Qubit.mk,
          (args.drop (guardWidth guard + op.qubitCount)).map Bit.mk, condition, opgroup⟩ := by
  cases guard with
  | none =>
    rw [ofArgs_none]
    split_ifs with hlength <;> simp [Heeds, guardWidth, hlength, eq_comm]
  | some guard =>
    obtain ⟨width, value⟩ := guard
    rw [ofArgs_some]
    split_ifs with hlength
    · simp only [guardWidth, Option.map_some, Option.getD_some, hlength, true_and, Heeds]
      constructor
      · intro h
        cases hmake : Condition.make ((args.take width).map Bit.mk) value with
        | error e => rw [hmake] at h; cases h
        | ok condition =>
          rw [hmake] at h
          cases h
          obtain ⟨hbits, hvalue⟩ := Condition.make_eq_ok_iff.1 hmake
          exact ⟨some condition, ⟨by simp [hvalue], by simpa using hbits⟩, rfl⟩
      · rintro ⟨condition, ⟨hvalue, hbits⟩, rfl⟩
        obtain ⟨condition, rfl, rfl⟩ := Option.map_eq_some_iff.1 hvalue
        rw [Condition.make_eq_ok_iff.2 ⟨hbits condition rfl, rfl⟩]
        rfl
    · simp [guardWidth, hlength]

theorem exists_heeds_iff (h : guardWidth guard ≤ args.length) :
    (∃ condition, Heeds args guard condition) ↔
      ∀ g ∈ guard, 1 ≤ g.1 ∧ g.1 ≤ 64 ∧ g.2.toNat < 2 ^ g.1 := by
  cases guard with
  | none => simp [Heeds]
  | some guard =>
    obtain ⟨width, value⟩ := guard
    have hlength : ((args.take width).map Bit.mk).length = width := by
      rw [List.length_map, List.length_take]
      exact Nat.min_eq_left h
    have hexists := Condition.exists_iff ((args.take width).map Bit.mk) value
    rw [hlength] at hexists
    simp only [Heeds, guardWidth, Option.map_some, Option.getD_some, Option.map_eq_some_iff,
      Option.mem_some_iff, forall_eq', ← hexists]
    constructor
    · rintro ⟨_, ⟨condition, rfl, hvalue⟩, hbits⟩
      exact ⟨condition, hbits condition rfl, hvalue⟩
    · rintro ⟨condition, hbits, hvalue⟩
      exact ⟨some condition, ⟨condition, rfl, hvalue⟩, by simpa using hbits⟩

theorem conditionBits_of_heeds (command : Command) (h : Heeds args guard command.condition) :
    command.conditionBits = (args.take (guardWidth guard)).map Bit.mk := by
  obtain ⟨hvalue, hbits⟩ := h
  rw [Command.conditionBits]
  cases hc : command.condition with
  | none =>
    rw [hc, Option.map_none, eq_comm, Option.map_eq_none_iff] at hvalue
    simp [guardWidth, hvalue]
  | some condition => exact hbits condition hc

theorem exists_ofArgs_iff (args : List UnitId) (guard : Option (Nat × UInt64)) (op : Operation)
    (opgroup : Option String) : (∃ command, Command.ofArgs args guard op opgroup = .ok command) ↔
      args.length = guardWidth guard + op.qubitCount + op.bitCount ∧
        ∀ g ∈ guard, 1 ≤ g.1 ∧ g.1 ≤ 64 ∧ g.2.toNat < 2 ^ g.1 := by
  simp only [ofArgs_eq_ok_iff]
  constructor
  · rintro ⟨command, hlength, condition, hheeds, -⟩
    have hwidth : guardWidth guard ≤ args.length := by omega
    exact ⟨hlength, (exists_heeds_iff hwidth).1 ⟨condition, hheeds⟩⟩
  · rintro ⟨hlength, hguard⟩
    have hwidth : guardWidth guard ≤ args.length := by omega
    obtain ⟨condition, hheeds⟩ := (exists_heeds_iff hwidth).2 hguard
    exact ⟨_, hlength, condition, hheeds, rfl⟩

/-- A command that was split from arguments fits the units when these arguments are declared
and distinct; their numbers are right. -/
theorem fits_iff_of_ofArgs (h : Command.ofArgs args guard op opgroup = .ok command)
    (hop : op.Admissible) (qubits : List Qubit) (bits : List Bit) :
    let qubitArgs := ((args.drop (guardWidth guard)).take op.qubitCount).map Qubit.mk
    let bitArgs := (args.take (guardWidth guard) ++
      args.drop (guardWidth guard + op.qubitCount)).map Bit.mk
    command.Fits qubits bits ↔ ((∀ q ∈ qubitArgs, q ∈ qubits) ∧ qubitArgs.Nodup) ∧
      (∀ b ∈ bitArgs, b ∈ bits) ∧ bitArgs.Nodup := by
  obtain ⟨hlength, condition, hheeds, rfl⟩ := ofArgs_eq_ok_iff.1 h
  dsimp only
  rw [List.map_append, ← conditionBits_of_heeds ⟨op, _, _, condition, opgroup⟩ hheeds]
  constructor
  · intro hfits
    exact ⟨⟨hfits.qubits_declared, hfits.qubits_nodup⟩, hfits.bits_declared, hfits.bits_nodup⟩
  · rintro ⟨⟨hqd, hqn⟩, hbd, hbn⟩
    refine ⟨hop, ?_, ?_, hqd, hqn, hbd, hbn, fun condition _ => condition.bounds⟩
    · simp only [List.length_map, List.length_take, List.length_drop]
      omega
    · simp only [List.length_map, List.length_drop]
      omega

end Command

namespace Document

/-! ### Commands -/

/-- The width and the value of the condition, for splitting the arguments. -/
def Op.guard (op : Op) : Option (Nat × UInt64) :=
  op.guard?.map fun guard => (guard.width.toNat, guard.value)

/-- What a guarded operation must carry, and what this says of the operation that is carried
out and of the condition. -/
theorem Op.guarded_iff {op : Op} : (op.type = .conditional → ∃ guard, op.conditional = some guard ∧
    guard.op.type ≠ .conditional ∧ 1 ≤ guard.width.toNat ∧ guard.width.toNat ≤ 64 ∧
      guard.value.toNat < 2 ^ guard.width.toNat) ↔
    (op.type = .conditional → op.conditional.isSome) ∧ op.core.type ≠ .conditional ∧
      ∀ guard ∈ op.guard?, 1 ≤ guard.width.toNat ∧ guard.width.toNat ≤ 64 ∧
        guard.value.toNat < 2 ^ guard.width.toNat := by
  by_cases ht : op.type = .conditional
  · cases hc : op.conditional <;> simp [core, guard?, ht, hc]
  · simp [core, guard?, ht]

theorem Command.load_eq_ok_iff {c : Command} {command : QuantumCircuit.Command} :
    c.load = .ok command ↔
      (c.op.type = .conditional → c.op.conditional.isSome) ∧
        ∃ op, c.op.core.load = .ok op ∧
          QuantumCircuit.Command.ofArgs c.args c.op.guard op c.opgroup = .ok command := by
  obtain ⟨args, op, opgroup⟩ := c
  by_cases ht : op.type = .conditional
  · obtain ⟨box, conditional, type⟩ := op
    cases ht
    cases conditional with
    | none => simp [Command.load]
    | some guard =>
      obtain ⟨inner, value, width⟩ := guard
      rw [Command.load, bind_eq_ok_iff]
      simp [Op.core, Op.guard, Op.guard?]
  · have hnone : op.guard? = none := if_neg ht
    rw [Command.load_of_type_ne ht, bind_eq_ok_iff]
    simp [Op.core, Op.guard, hnone, ht]

theorem Op.guardWidth_guard (op : Op) : QuantumCircuit.Command.guardWidth op.guard = op.width := by
  rw [QuantumCircuit.Command.guardWidth, guard, width]
  cases op.guard? <;> rfl

theorem forall_mem_units_iff {α : Type} {mk : UnitId → α} (h : Function.Injective mk)
    {us declared : List UnitId} :
    (∀ a ∈ us.map mk, a ∈ declared.map mk) ↔ ∀ u ∈ us, u ∈ declared := by
  simp only [List.forall_mem_map, List.mem_map_of_injective h]

theorem qubit_injective : Function.Injective Qubit.mk := fun _ _ => Qubit.mk.inj

theorem bit_injective : Function.Injective Bit.mk := fun _ _ => Bit.mk.inj

/-- With its operation loaded, a command is accepted among the units when its arguments and its
condition are right. -/
theorem Command.exists_split_iff {c : Command} {op : Operation} (hop : c.op.core.load = .ok op)
    {qubits bits : List UnitId} :
    (∃ command, QuantumCircuit.Command.ofArgs c.args c.op.guard op c.opgroup = .ok command ∧
      command.Fits (qubits.map Qubit.mk) (bits.map Bit.mk)) ↔
      (c.args.length = c.op.width + c.op.core.qubitCount + c.op.core.bitCount ∧
        ∀ guard ∈ c.op.guard?, 1 ≤ guard.width.toNat ∧ guard.width.toNat ≤ 64 ∧
          guard.value.toNat < 2 ^ guard.width.toNat) ∧
      ((∀ u ∈ c.qubitArgs, u ∈ qubits) ∧ c.qubitArgs.Nodup) ∧
        (∀ u ∈ c.bitArgs, u ∈ bits) ∧ c.bitArgs.Nodup := by
  obtain ⟨hadmissible, hq, hb⟩ := Op.load_arity hop
  have hsplit := QuantumCircuit.Command.exists_ofArgs_iff c.args c.op.guard op c.opgroup
  have hfits {command : QuantumCircuit.Command} (h : QuantumCircuit.Command.ofArgs c.args
      c.op.guard op c.opgroup = .ok command) :=
    QuantumCircuit.Command.fits_iff_of_ofArgs h hadmissible (qubits.map Qubit.mk)
      (bits.map Bit.mk)
  simp only [c.op.guardWidth_guard, hq, hb, forall_mem_units_iff qubit_injective,
    forall_mem_units_iff bit_injective, List.nodup_map_iff qubit_injective,
    List.nodup_map_iff bit_injective] at hsplit hfits
  simp only [Op.guard, Option.mem_map, forall_exists_index, and_imp, forall_apply_eq_imp_iff₂]
    at hsplit
  constructor
  · rintro ⟨command, hargs, h⟩
    exact ⟨hsplit.1 ⟨command, hargs⟩, (hfits hargs).1 h⟩
  · rintro ⟨hright, hunits⟩
    obtain ⟨command, hargs⟩ := hsplit.2 hright
    exact ⟨command, hargs, (hfits hargs).2 hunits⟩

/-- A command is accepted among the units when it fits them and the circuit in its box can be
loaded. -/
theorem Command.exists_load_iff {c : Command} {qubits bits : List UnitId} :
    (∃ command, c.load = .ok command ∧ command.Fits (qubits.map Qubit.mk) (bits.map Bit.mk)) ↔
      c.Fits qubits bits ∧
        ∀ box, c.op.core.box? = some box → ∃ body, box.circuit.load = .ok body := by
  constructor
  · rintro ⟨command, hload, hfits⟩
    obtain ⟨hsome, op, hop, hargs⟩ := Command.load_eq_ok_iff.1 hload
    obtain ⟨hcore, hbox, hbodies⟩ := Op.exists_load_iff.1 ⟨op, hop⟩
    obtain ⟨⟨hlength, hguard⟩, ⟨hqd, hqn⟩, hbd, hbn⟩ :=
      (Command.exists_split_iff hop).1 ⟨command, hargs, hfits⟩
    exact ⟨⟨Op.guarded_iff.2 ⟨hsome, hcore, hguard⟩, hbox, hlength, hqd, hqn, hbd, hbn⟩, hbodies⟩
  · rintro ⟨⟨hguarded, hbox, hlength, hqd, hqn, hbd, hbn⟩, hbodies⟩
    obtain ⟨hsome, hcore, hguard⟩ := Op.guarded_iff.1 hguarded
    obtain ⟨op, hop⟩ := Op.exists_load_iff.2 ⟨hcore, hbox, hbodies⟩
    obtain ⟨command, hargs, hfits⟩ :=
      (Command.exists_split_iff hop).2 ⟨⟨hlength, hguard⟩, ⟨hqd, hqn⟩, hbd, hbn⟩
    exact ⟨command, Command.load_eq_ok_iff.2 ⟨hsome, op, hop, hargs⟩, hfits⟩

/-! ### Documents -/

theorem pairs_bijection_iff {d : Document} :
    Bijection (d.qubits.map Qubit.mk) d.pairs ↔ Bijection d.qubits d.permutation :=
  Bijection.map_iff qubit_injective

/-- A list can be matched by suitable members when each of its own members can. -/
theorem exists_forall₂_iff {α β : Type} {R : α → β → Prop} {p : β → Prop} {as : List α} :
    (∃ bs, List.Forall₂ R as bs ∧ ∀ b ∈ bs, p b) ↔ ∀ a ∈ as, ∃ b, R a b ∧ p b := by
  induction as with
  | nil => simp
  | cons a as ih =>
    rw [List.forall_mem_cons, ← ih]
    constructor
    · rintro ⟨_, hall, hp⟩
      obtain ⟨b, bs, hb, hbs, rfl⟩ := List.forall₂_cons_left_iff.1 hall
      rw [List.forall_mem_cons] at hp
      exact ⟨⟨b, hb, hp.1⟩, bs, hbs, hp.2⟩
    · rintro ⟨⟨b, hb, hpb⟩, bs, hbs, hp⟩
      exact ⟨b :: bs, .cons hb hbs, List.forall_mem_cons.2 ⟨hpb, hp⟩⟩

/-- A document can be loaded when its own parts are right and the circuits in its boxes can be
loaded. -/
theorem exists_load_iff {d : Document} : (∃ c, d.load = .ok c) ↔ d.qubits.Nodup ∧ d.bits.Nodup ∧
    (∀ c ∈ d.commands, c.Fits d.qubits d.bits ∧
      ∀ box, c.op.core.box? = some box → ∃ body, box.circuit.load = .ok body) ∧
    Bijection d.qubits d.permutation := by
  simp only [← Command.exists_load_iff, ← exists_forall₂_iff]
  rw [← pairs_bijection_iff, ← List.nodup_map_iff qubit_injective,
    ← List.nodup_map_iff bit_injective]
  constructor
  · rintro ⟨c, hload⟩
    obtain ⟨hq, hb, hpairs, commands, hloads, hfits, -⟩ := load_eq_ok_iff.1 hload
    exact ⟨hq, hb, ⟨commands, hloads, hfits⟩, hpairs⟩
  · rintro ⟨hq, hb, ⟨commands, hloads, hfits⟩, hpairs⟩
    exact ⟨_, load_eq_ok_iff.2 ⟨hq, hb, hpairs, commands, hloads, hfits, rfl⟩⟩

theorem exists_load_iff_valid (d : Document) : (∃ c, d.load = .ok c) ↔ d.Valid := by
  induction d using box_induction with
  | step d ih =>
    have hcommands : (∀ c ∈ d.commands, c.Fits d.qubits d.bits ∧
        ∀ box, c.op.core.box? = some box → ∃ body, box.circuit.load = .ok body) ↔
        ∀ c ∈ d.commands, c.Fits d.qubits d.bits ∧
          ∀ box, c.op.core.box? = some box → box.circuit.Valid := by
      refine forall₂_congr fun c hc => and_congr_right fun _ => ?_
      exact forall₂_congr fun box hbox => ih c hc box hbox
    rw [exists_load_iff, hcommands, valid_iff]

/-! ### Payloads that no type selects -/

mutual

/-- The document without the payloads that no type selects, in all of its boxes too. -/
def selected : Document → Document
  | ⟨bits, commands, permutation, name, phase, qubits⟩ =>
    ⟨bits, selectedAll commands, permutation, name, phase, qubits⟩

def selectedAll : List Command → List Command
  | [] => []
  | c :: cs => c.selected :: selectedAll cs

def Command.selected : Command → Command
  | ⟨args, op, opgroup⟩ => ⟨args, op.selected, opgroup⟩

/-- A box stays beside the type of boxes, a condition beside the type of guarded operations. -/
def Op.selected : Op → Op
  | ⟨some box, _, .circBox⟩ => ⟨some box.selected, none, .circBox⟩
  | ⟨_, some guard, .conditional⟩ => ⟨none, some guard.selected, .conditional⟩
  | ⟨_, _, type⟩ => .plain type

def Box.selected : Box → Box
  | ⟨circuit, id, type⟩ => ⟨circuit.selected, id, type⟩

def Conditional.selected : Conditional → Conditional
  | ⟨op, value, width⟩ => ⟨op.selected, value, width⟩

end

theorem Op.load_selected {op : Op}
    (h : ∀ box, op.box? = some box → box.circuit.selected.load = box.circuit.load) :
    op.selected.load = op.load := by
  obtain ⟨box, conditional, type⟩ := op
  cases type with
  | circBox =>
    cases box with
    | none => rw [Op.selected, Op.plain, Op.load, Op.load] <;> simp
    | some box =>
      obtain ⟨circuit, id, boxType⟩ := box
      have hbody := h _ rfl
      rw [Op.selected, Box.selected, Op.load, Op.load, hbody]
  | conditional =>
    rw [Op.load_conditional ⟨box, conditional, .conditional⟩ rfl, Op.load_conditional]
    cases conditional <;> rw [Op.selected] <;> simp [plain]
  | _ =>
    rw [Op.load_plain (by simp) (by simp), Op.selected, Op.plain, Op.load_plain] <;> simp

theorem Op.selected_type (op : Op) : op.selected.type = op.type := by
  fun_cases Op.selected op <;> simp [plain]

theorem Command.load_selected {c : Command}
    (h : ∀ box, c.op.core.box? = some box → box.circuit.selected.load = box.circuit.load) :
    c.selected.load = c.load := by
  obtain ⟨args, op, opgroup⟩ := c
  rw [Command.selected]
  by_cases ht : op.type = .conditional
  · obtain ⟨box, conditional, type⟩ := op
    cases ht
    cases conditional with
    | none => rw [Op.selected, Op.plain, Command.load, Command.load] <;> simp
    | some guard =>
      obtain ⟨inner, value, width⟩ := guard
      have hinner : inner.selected.load = inner.load := Op.load_selected h
      rw [Op.selected, Conditional.selected, Command.load, Command.load, hinner]
  · have hcore : op.core = op := by rw [Op.core, Op.guard?, if_neg ht, Option.elim_none]
    dsimp only at h
    rw [hcore] at h
    rw [Command.load_of_type_ne (op.selected_type ▸ ht), Command.load_of_type_ne ht,
      Op.load_selected h]

theorem loadCommands_selectedAll {cs : List Command} (h : ∀ c ∈ cs, c.selected.load = c.load) :
    loadCommands (selectedAll cs) = loadCommands cs := by
  induction cs with
  | nil => rfl
  | cons c cs ih =>
    rw [List.forall_mem_cons] at h
    rw [selectedAll, loadCommands, loadCommands, h.1, ih h.2]

/-- Loading does not look at payloads that no type selects. -/
theorem load_selected (d : Document) : d.selected.load = d.load := by
  induction d using box_induction with
  | step d ih =>
    have hcommands := loadCommands_selectedAll fun c hc => Command.load_selected (ih c hc)
    obtain ⟨bits, commands, permutation, name, phase, qubits⟩ := d
    rw [selected, load, load, hcommands]

/-- A document is accepted exactly when it is valid, and payloads that no type selects make no
difference to what comes of it. -/
theorem accepted_iff (d : Document) :
    ((∃ c, d.load = .ok c) ↔ d.Valid) ∧ d.selected.load = d.load :=
  ⟨d.exists_load_iff_valid, d.load_selected⟩

end Document

end QuantumCircuit
