import QuantumCircuit.Document.Circuit
import QuantumCircuit.Proofs.Edits

/-! Circuits that can come about: those made anew, those read from a document, and those
that a call on such a circuit leaves behind, whether it is refused or not. A command may
be anything, except that the circuit inside a box has to come about in the same way. All
of them are valid: a call leaves the circuit as it is or makes one edit, and a document makes
its circuit by edits. -/

namespace QuantumCircuit

/-! ### Calls -/

/-- A call on a circuit, with its arguments. -/
inductive Call where
  | declareQubit (q : Qubit)
  | declareBit (b : Bit)
  | declareQubitRegister (name : String) (size : UInt32)
  | declareBitRegister (name : String) (size : UInt32)
  | gate (type : OpType) (qubits : List Qubit)
  | guardedGate (type : OpType) (qubits : List Qubit) (condition : Condition)
  | measure (q : Qubit) (b : Bit)
  | reset (q : Qubit)
  | box (id : Uuid) (body : Circuit) (qubits : List Qubit) (condition : Option Condition)
  | add (command : Command)
  | setName (name : String)
  | setPhase (phase : String)
  | setPermutation (pairs : List (Qubit × Qubit))
  | inline

/-- The circuit inside the box that a call adds. -/
def Call.body? : Call → Option Circuit
  | .box _ body _ _ => some body
  | .add ⟨.box _ body, _, _, _, _⟩ => some body
  | _ => none

/-- The action that a call stands for, without its result. -/
def Call.action : Call → Build Unit
  | .declareQubit q => Build.declareQubit q
  | .declareBit b => Build.declareBit b
  | .declareQubitRegister name size => do let _ ← Build.declareQubitRegister name size; return ()
  | .declareBitRegister name size => do let _ ← Build.declareBitRegister name size; return ()
  | .gate type qubits => Build.gate type qubits
  | .guardedGate type qubits condition => Build.guardedGate type qubits condition
  | .measure q b => Build.measure q b
  | .reset q => Build.reset q
  | .box id body qubits condition => Build.box id body qubits condition
  | .add command => Build.add command
  | .setName name => Build.setName name
  | .setPhase phase => Build.setPhase phase
  | .setPermutation pairs => Build.setPermutation pairs
  | .inline => do let _ ← Build.inline; return ()

/-- The circuit that a call leaves behind, refused or not. -/
def Call.leaves (c : Circuit) (call : Call) : Circuit := call.action.leaves c

/-- Circuits that can come about. -/
inductive Reachable : Circuit → Prop where
  | empty : Reachable .empty
  | withQubits (n : UInt32) : Reachable (.withQubits n)
  | named (name : String) (n : UInt32) : Reachable (.named name n)
  | load {d : Document} {c : Circuit} (h : d.load = .ok c) : Reachable c
  | ofText {text : String} {c : Circuit} (h : Circuit.ofText text = .ok c) : Reachable c
  | ofValue {v : Json} {c : Circuit} (h : Circuit.ofValue v = .ok c) : Reachable c
  | call {c : Circuit} (call : Call) (hc : Reachable c)
      (hb : ∀ body ∈ call.body?, Reachable body) : Reachable (call.leaves c)

/-! ### What calls do -/

/-- The edit that a call asks for. -/
def Call.edit : Call → Edit
  | .declareQubit q => .qubits [q]
  | .declareBit b => .bits [b]
  | .declareQubitRegister name size => .qubits ((indicesBelow size).map (Qubit.inRegister name))
  | .declareBitRegister name size => .bits (Register.mk name size).bits
  | .gate type qubits => .command (.gate type qubits)
  | .guardedGate type qubits condition =>
    .command { Command.gate type qubits with condition := some condition }
  | .measure q b => .command (.measure q b)
  | .reset q => .command (.reset q)
  | .box id body qubits condition =>
    .command { Command.box id body qubits [] with condition := condition }
  | .add command => .command command
  | .setName name => .name name
  | .setPhase phase => .phase phase
  | .setPermutation pairs => .permutation pairs
  | .inline => .inlining

theorem Call.action_makes (call : Call) : call.action.Makes call.edit := by
  cases call with
  | declareQubit q => exact Build.declareQubit_makes q
  | declareBit b => exact Build.declareBit_makes b
  | declareQubitRegister name size => exact (Build.declareQubitRegister_makes name size).answer ()
  | declareBitRegister name size => exact (Build.declareBitRegister_makes name size).answer ()
  | gate | guardedGate | measure | reset | box | add => exact Build.add_makes _
  | setName name => exact Build.setName_makes name
  | setPhase phase => exact Build.setPhase_makes phase
  | setPermutation pairs => exact Build.setPermutation_makes pairs
  | inline => exact Build.inline_makes.answer ()

/-- A call leaves the circuit as it is, or with the edit that it asks for. -/
theorem Call.leaves_cases (call : Call) (c : Circuit) :
    call.leaves c = c ∨ call.edit.Made c (call.leaves c) :=
  call.action_makes.leaves c

theorem Operation.bodyValid_ofType (type : OpType) : (Operation.ofType type).BodyValid := by
  intro id body hop
  cases type <;> simp [ofType] at hop

/-- The command that a call adds is a box only if the call says what is inside. -/
theorem Call.edit_bodyValid {call : Call} (hb : ∀ body ∈ call.body?, body.Valid) {added : Command}
    (h : call.edit = .command added) : added.op.BodyValid := by
  cases call with
  | gate type qubits | guardedGate type qubits condition =>
    cases h
    exact Operation.bodyValid_ofType type
  | measure q b | reset q =>
    cases h
    nofun
  | box id body qubits condition =>
    cases h
    intro id' body' hop
    cases hop
    exact hb body rfl
  | add command =>
    obtain ⟨op, qubits, bits, condition, opgroup⟩ := command
    cases h
    intro id body hop
    cases hop
    exact hb body rfl
  | _ => cases h

/-- Every call leaves a valid circuit behind. -/
theorem Call.leaves_valid {c : Circuit} (h : c.Valid) (call : Call)
    (hb : ∀ body ∈ call.body?, body.Valid) : (call.leaves c).Valid := by
  rcases call.leaves_cases c with hsame | hmade
  · exact hsame.symm ▸ h
  · exact hmade.valid h fun _ => call.edit_bodyValid hb

/-! ### Documents give valid circuits -/

theorem Build.bind_run_eq_ok_iff {α β : Type} {action : Build α} {next : α → Build β}
    {c c' : Circuit} {b : β} : (action >>= next).run c = .ok b c' ↔
      ∃ a d, action.run c = .ok a d ∧ (next a).run d = .ok b c' := by
  rw [EStateM.run_bind]
  cases action.run c <;> simp

theorem Circuit.built_eq_ok_iff {α : Type} {c d : Circuit} {action : Build α} :
    c.built action = .ok d ↔ ∃ a, action.run c = .ok a d := by
  rw [built]
  cases action.run c <;> simp

theorem Build.ofExcept_run_eq_ok_iff {α : Type} {x : Except Error α} {c d : Circuit} {a : α} :
    (ofExcept x).run c = .ok a d ↔ x = .ok a ∧ c = d := by
  cases x with
  | ok b => simp [ofExcept]
  | error e =>
    constructor
    · intro h; cases h
    · rintro ⟨h, _⟩; cases h

/-- The arguments of an unguarded operation: its qubits, then the bits that it writes. -/
theorem Command.ofArgs_none (args : List UnitId) (op : Operation) (opgroup : Option String) :
    Command.ofArgs args none op opgroup =
      if args.length = op.qubitCount + op.bitCount then
        .ok ⟨op, (args.take op.qubitCount).map Qubit.mk, (args.drop op.qubitCount).map Bit.mk,
          none, opgroup⟩
      else .error (.invalidDocument
        (.argumentCount op.name (op.qubitCount + op.bitCount) args.length)) := by
  by_cases h : args.length = op.qubitCount + op.bitCount
  · simp [ofArgs, h, pure, Except.pure, bind, Except.bind]
  · simp [ofArgs, h, bind, Except.bind, throw, throwThe, MonadExceptOf.throw]

/-- The arguments of a guarded operation: the bits of the condition come first. -/
theorem Command.ofArgs_some (args : List UnitId) (width : Nat) (value : UInt64) (op : Operation)
    (opgroup : Option String) :
    Command.ofArgs args (some (width, value)) op opgroup =
      if args.length = width + op.qubitCount + op.bitCount then
        (Condition.make ((args.take width).map Bit.mk) value).map fun condition =>
          ⟨op, ((args.drop width).take op.qubitCount).map Qubit.mk,
            (args.drop (width + op.qubitCount)).map Bit.mk, some condition, opgroup⟩
      else .error (.invalidDocument
        (.argumentCount op.name (width + op.qubitCount + op.bitCount) args.length)) := by
  by_cases h : args.length = width + op.qubitCount + op.bitCount
  · simp only [ofArgs, Option.map_some, Option.getD_some, h, ne_eq, not_true_eq_false, if_false,
      if_true]
    cases Condition.make ((args.take width).map Bit.mk) value <;> rfl
  · simp [ofArgs, h, bind, Except.bind, throw, throwThe, MonadExceptOf.throw]

theorem Command.ofArgs_op {args : List UnitId} {guard : Option (Nat × UInt64)} {op : Operation}
    {opgroup : Option String} {command : Command}
    (h : Command.ofArgs args guard op opgroup = .ok command) : command.op = op := by
  cases guard with
  | none =>
    rw [ofArgs_none] at h
    split_ifs at h
    cases h
    rfl
  | some guard =>
    rw [ofArgs_some] at h
    split_ifs at h
    cases hc : Condition.make ((args.take guard.1).map Bit.mk) guard.2 with
    | error e => rw [hc] at h; cases h
    | ok condition => rw [hc] at h; cases h; rfl

theorem Document.Command.load_of_type_ne {op : Document.Op} (h : op.type ≠ .conditional)
    (args : List UnitId) (opgroup : Option String) :
    Document.Command.load ⟨args, op, opgroup⟩ =
      op.load >>= fun op => QuantumCircuit.Command.ofArgs args none op opgroup := by
  obtain ⟨box, conditional, type⟩ := op
  cases type with
  | conditional => exact absurd rfl h
  | _ => rw [Document.Command.load] <;> simp

theorem Document.Op.load_plain {box : Option Document.Box}
    {conditional : Option Document.Conditional} {type : OpType} (h₁ : type ≠ .circBox)
    (h₂ : type ≠ .conditional) :
    Document.Op.load ⟨box, conditional, type⟩ = .ok (Operation.ofType type) := by
  cases type with
  | conditional => exact absurd rfl h₂
  | circBox => exact absurd rfl h₁
  | _ => rw [Document.Op.load] <;> simp

mutual

theorem Document.load_valid : (d : Document) → {c : Circuit} → d.load = .ok c → c.Valid
  | ⟨bits, commands, permutation, name, phase, qubits⟩, c, h => by
    rw [Document.load, Circuit.built_eq_ok_iff] at h
    obtain ⟨_, h⟩ := h
    obtain ⟨_, c₁, h₁, h⟩ := Build.bind_run_eq_ok_iff.1 h
    obtain ⟨_, c₂, h₂, h⟩ := Build.bind_run_eq_ok_iff.1 h
    obtain ⟨_, c₃, h₃, h₄⟩ := Build.bind_run_eq_ok_iff.1 h
    have v₁ : c₁.Valid := ((Build.declareQubits_makes _).of_ok h₁).valid
      (Circuit.Valid.empty.relabel name phase) nofun
    have v₂ : c₂.Valid := ((Build.declareBits_makes _).of_ok h₂).valid v₁ nofun
    have v₃ : c₃.Valid := Document.loadCommands_valid commands v₂ h₃
    exact ((Build.setPermutation_makes _).of_ok h₄).valid v₃ nofun

theorem Document.loadCommands_valid : (commands : List Document.Command) → {c c' : Circuit} →
    c.Valid → (Document.loadCommands commands).run c = .ok () c' → c'.Valid
  | [], c, c', hv, h => by
    cases h
    exact hv
  | command :: commands, c, c', hv, h => by
    rw [Document.loadCommands] at h
    obtain ⟨d, c₁, h₁, h⟩ := Build.bind_run_eq_ok_iff.1 h
    obtain ⟨hload, rfl⟩ := Build.ofExcept_run_eq_ok_iff.1 h₁
    obtain ⟨_, c₂, h₂, h⟩ := Build.bind_run_eq_ok_iff.1 h
    have v₂ : c₂.Valid := by
      refine ((Build.add_makes d).of_ok h₂).valid hv fun added hadded => ?_
      cases hadded
      exact Document.Command.load_bodyValid command hload
    exact Document.loadCommands_valid commands v₂ h

theorem Document.Command.load_bodyValid : (command : Document.Command) →
    {d : QuantumCircuit.Command} → command.load = .ok d → d.op.BodyValid
  | ⟨args, ⟨box, none, type⟩, opgroup⟩, d, h => by
    by_cases ht : type = .conditional
    · subst ht
      rw [Document.Command.load] at h
      cases h
    · rw [Document.Command.load_of_type_ne ht] at h
      obtain ⟨op, hop, h⟩ := bind_eq_ok_iff.1 h
      rw [Command.ofArgs_op h]
      exact Document.Op.load_bodyValid ⟨box, none, type⟩ hop
  | ⟨args, ⟨box, some ⟨op, value, width⟩, type⟩, opgroup⟩, d, h => by
    by_cases ht : type = .conditional
    · subst ht
      rw [Document.Command.load] at h
      obtain ⟨op', hop, h⟩ := bind_eq_ok_iff.1 h
      rw [Command.ofArgs_op h]
      exact Document.Op.load_bodyValid op hop
    · rw [Document.Command.load_of_type_ne ht] at h
      obtain ⟨op', hop, h⟩ := bind_eq_ok_iff.1 h
      rw [Command.ofArgs_op h]
      exact Document.Op.load_bodyValid ⟨box, some ⟨op, value, width⟩, type⟩ hop

theorem Document.Op.load_bodyValid : (op : Document.Op) → {op' : Operation} →
    op.load = .ok op' → op'.BodyValid
  | ⟨none, conditional, type⟩, op', h => by
    cases type with
    | circBox => rw [Document.Op.load] at h; cases h
    | conditional => rw [Document.Op.load] at h; cases h
    | _ =>
      rw [Document.Op.load_plain (by simp) (by simp)] at h
      cases h
      exact Operation.bodyValid_ofType _
  | ⟨some ⟨circuit, id, boxType⟩, conditional, type⟩, op', h => by
    cases type with
    | circBox =>
      rw [Document.Op.load] at h
      split_ifs at h
      obtain ⟨c, hc, h⟩ := bind_eq_ok_iff.1 h
      cases h
      intro id' body hop
      cases hop
      exact Document.load_valid circuit hc
    | conditional => rw [Document.Op.load] at h; cases h
    | _ =>
      rw [Document.Op.load_plain (by simp) (by simp)] at h
      cases h
      exact Operation.bodyValid_ofType _

end

/-! ### Reachable circuits are valid -/

theorem Circuit.ofReading_eq_ok_iff {r : Json.Reading Document} {c : Circuit} :
    Circuit.ofReading r = .ok c ↔ ∃ d, r = .ok d ∧ d.load = .ok c := by
  cases r <;> simp [ofReading]

theorem Reachable.valid {c : Circuit} (h : Reachable c) : c.Valid := by
  induction h with
  | empty => exact .empty
  | withQubits n => exact .withQubits n
  | named name n => exact (Circuit.Valid.withQubits n).relabel (some name) _
  | load h => exact Document.load_valid _ h
  | ofText h =>
    obtain ⟨d, _, hd⟩ := Circuit.ofReading_eq_ok_iff.1 h
    exact Document.load_valid d hd
  | ofValue h =>
    obtain ⟨d, _, hd⟩ := Circuit.ofReading_eq_ok_iff.1 h
    exact Document.load_valid d hd
  | call call _ _ ih ihb => exact call.leaves_valid ih ihb

end QuantumCircuit
