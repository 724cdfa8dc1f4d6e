import QuantumCircuit.Proofs.Meaning

/-! The leaves of a circuit, and that inlining lists them. The commands of a circuit and of the
circuits in its boxes form a tree; its leaves are the commands that are no boxes. Walking down
the tree, a leaf is reached with the renamings of all boxes around it put together and with
all conditions that stand on the way. Inlining works from the inside out, one box at a time;
when it succeeds, it gives the leaves in their order, and none of them has two conditions. -/

namespace QuantumCircuit

/-! ### Leaves -/

/-- First `inner`, then `outer`. -/
def Renaming.comp (outer inner : Renaming) : Renaming :=
  ⟨outer.qubit ∘ inner.qubit, outer.bit ∘ inner.bit⟩

/-- A command that is no box, on the units outside all boxes. -/
structure Leaf where
  op : Operation
  qubits : List Qubit
  bits : List Bit
  /-- The conditions of the boxes around the command, from the outside, and its own. -/
  guards : List Condition
  opgroup : Option String

/-- The leaf of a command under a renaming and under the conditions around it. -/
def Leaf.of (ρ : Renaming) (guards : List Condition) (command : Command) : Leaf where
  op := command.op
  qubits := command.qubits.map ρ.qubit
  bits := command.bits.map ρ.bit
  guards := guards ++ (command.condition.map (Condition.renamed ρ.bit)).toList
  opgroup := command.opgroup

/-- The command that a leaf stands for, under its first condition. -/
def Leaf.command (leaf : Leaf) : Command :=
  ⟨leaf.op, leaf.qubits, leaf.bits, leaf.guards.head?, leaf.opgroup⟩

mutual

/-- The leaves of commands inside boxes that rename by `ρ` and have the conditions `guards`. -/
def leafLists (ρ : Renaming) (guards : List Condition) : List Command → List Leaf
  | [] => []
  | command :: commands => command.leafList ρ guards ++ leafLists ρ guards commands

/-- A box renames first, and then those around it; its condition is on the units outside it. -/
def Command.leafList (ρ : Renaming) (guards : List Condition) : Command → List Leaf
  | ⟨.box _ body, qubits, bits, condition, _⟩ =>
    body.leafListUnder (ρ.comp (.ofBox body qubits bits))
      (guards ++ (condition.map (Condition.renamed ρ.bit)).toList)
  | command => [.of ρ guards command]

def Circuit.leafListUnder (ρ : Renaming) (guards : List Condition) : Circuit → List Leaf
  | ⟨_, _, _, _, commands, _, _, _⟩ => leafLists ρ guards commands

end

/-- The leaves of a circuit, from left to right. -/
def Circuit.leafList (c : Circuit) : List Leaf := c.leafListUnder .identity []

theorem Command.leafList_of_not_box {command : Command} (h : command.op.isBox = false)
    (ρ : Renaming) (guards : List Condition) :
    command.leafList ρ guards = [.of ρ guards command] := by
  obtain ⟨op, qubits, bits, condition, opgroup⟩ := command
  cases op with
  | box id body => simp [Operation.isBox] at h
  | _ => simp [leafList]

theorem Command.leafList_box {command : Command} {id : Uuid} {body : Circuit}
    (hop : command.op = .box id body) (ρ : Renaming) (guards : List Condition) :
    command.leafList ρ guards =
      leafLists (ρ.comp (.ofBox body command.qubits command.bits))
        (guards ++ (command.condition.map (Condition.renamed ρ.bit)).toList) body.commands := by
  obtain ⟨op, qubits, bits, condition, opgroup⟩ := command
  cases hop
  rw [leafList]
  cases body
  rw [Circuit.leafListUnder]

theorem Circuit.leafList_eq (c : Circuit) : c.leafList = leafLists .identity [] c.commands := by
  cases c
  rw [leafList, leafListUnder]

/-! ### Leaves of inlined commands -/

theorem Condition.renamed_comp (f g : Bit → Bit) (condition : Condition) :
    (condition.renamed g).renamed f = condition.renamed (f ∘ g) := by
  simp [renamed, withBits]

theorem Condition.renamed_id (condition : Condition) : condition.renamed id = condition := by
  cases condition
  simp [renamed, withBits]

/-- A renamed command is the same leaf as the command itself one box further in, if the box and
the command do not both have a condition. -/
theorem Leaf.of_renamed (ρ σ : Renaming) (guards : List Condition) {guard : Option Condition}
    {command : Command} (hn : ¬ command.Nested guard) :
    Leaf.of ρ guards (command.renamed σ guard) =
      Leaf.of (ρ.comp σ) (guards ++ (guard.map (Condition.renamed ρ.bit)).toList) command := by
  obtain ⟨op, qubits, bits, condition, opgroup⟩ := command
  cases condition with
  | none => simp [Leaf.of, Command.renamed, Renaming.comp]
  | some own =>
    cases guard with
    | none => simp [Leaf.of, Command.renamed, Renaming.comp, Condition.renamed_comp]
    | some guard => simp [Command.Nested] at hn

/-- The leaf of a command outside all boxes is that command. -/
theorem Leaf.command_of_identity (command : Command) :
    (Leaf.of .identity [] command).command = command := by
  obtain ⟨op, qubits, bits, condition, opgroup⟩ := command
  cases condition <;> simp [Leaf.of, Leaf.command, Renaming.identity, Condition.renamed_id]

/-- One command and the commands that stand for it have the same leaves. -/
theorem Command.leafList_inlined {c : Circuit} (hv : c.Valid) {command : Command}
    (hm : command ∈ c.commands)
    (ih : ∀ id body, command.op = .box id body → ∀ inner, body.inlined = .ok inner →
      ∀ σ gs, leafLists σ gs body.commands = inner.map (Leaf.of σ gs))
    {part : List Command} (hpart : command.inlined = .ok part) (ρ : Renaming)
    (guards : List Condition) : command.leafList ρ guards = part.map (Leaf.of ρ guards) := by
  have hfit := hv.fits command hm
  cases hop : command.op with
  | box id body =>
    have hbody := (hv.bodies command hm id body hop).inlined_fits
    obtain ⟨_, inner, hin, hn, rfl⟩ := (Command.inlined_box_eq_ok_iff hop (hfit.boxed hop)
      fun inner hin e he => (hbody inner hin e he).1).1 hpart
    rw [Command.leafList_box hop, ih id body hop inner hin, List.map_map]
    exact List.map_congr_left fun d hd => (Leaf.of_renamed ρ _ guards (hn d hd)).symm
  | _ =>
    have hbox : command.op.isBox = false := by rw [hop]; rfl
    rw [Command.inlined_of_not_box hbox] at hpart
    cases hpart
    rw [Command.leafList_of_not_box hbox, List.map_singleton]

/-- The leaves of a valid circuit are the leaves of its inlined commands, inside whatever boxes
the circuit stands. -/
theorem Circuit.Valid.leafList_inlined {c : Circuit} (h : c.Valid) :
    ∀ flat, c.inlined = .ok flat → ∀ ρ guards,
      leafLists ρ guards c.commands = flat.map (Leaf.of ρ guards) := by
  induction h with
  | @intro c indexed permutes fits bodies ih =>
    intro flat hflat ρ guards
    have hv : c.Valid := .intro indexed permutes fits bodies
    rw [Circuit.inlined_eq] at hflat
    refine inlineAll_rec (R := fun commands flat =>
      leafLists ρ guards commands = flat.map (Leaf.of ρ guards)) hflat (by rw [leafLists]; rfl) ?_
    intro command hm part rest flat hpart hrest
    rw [leafLists, Command.leafList_inlined hv hm (ih command hm) hpart, hrest, List.map_append]

/-! ### Inlining -/

theorem inlineAll_of_no_box {commands : List Command}
    (h : ∀ command ∈ commands, command.op.isBox = false) :
    inlineAll commands = .ok commands := by
  induction commands with
  | nil => rw [inlineAll]
  | cons command commands ih =>
    rw [List.forall_mem_cons] at h
    rw [inlineAll, Command.inlined_of_not_box h.1, ih h.2]
    rfl

/-- Inlining a circuit without boxes changes nothing. -/
theorem Build.inline_run_of_no_box {c : Circuit}
    (h : ∀ command ∈ c.commands, command.op.isBox = false) :
    Build.inline.run c = .ok 0 c := by
  have hcount : c.commands.countP (fun command => command.op.isBox) = 0 := by
    rw [List.countP_eq_zero]
    simpa using h
  rw [Build.inline_run, Circuit.inlined_eq, inlineAll_of_no_box h, hcount]
  cases c
  rfl

/-- When inlining succeeds, it counts the boxes of the circuit itself, replaces the commands by
the leaves of the circuit, none of which has two conditions, and changes nothing else. There
is no box left then, and inlining once more does nothing. -/
theorem Reachable.inline_leafList {c c' : Circuit} (h : Reachable c) {n : Nat}
    (hok : Build.inline.run c = .ok n c') :
    n = c.commands.countP (fun command => command.op.isBox) ∧
      c'.commands = c.leafList.map Leaf.command ∧
      (∀ leaf ∈ c.leafList, leaf.guards.length ≤ 1) ∧
      c' = { c with commands := c'.commands } ∧
      (∀ command ∈ c'.commands, command.op.isBox = false) ∧
      Build.inline.run c' = .ok 0 c' := by
  rw [Build.inline_run] at hok
  cases hflat : c.inlined with
  | error e => rw [hflat] at hok; cases hok
  | ok flat =>
    rw [hflat] at hok
    cases hok
    have hleaves : c.leafList = flat.map (Leaf.of .identity []) := by
      rw [Circuit.leafList_eq, h.valid.leafList_inlined flat hflat]
    have hboxes : ∀ command ∈ flat, command.op.isBox = false := fun command hm =>
      (h.valid.inlined_fits flat hflat command hm).2
    refine ⟨rfl, ?_, ?_, rfl, hboxes, Build.inline_run_of_no_box hboxes⟩
    · simp [hleaves, Function.comp_def, Leaf.command_of_identity]
    · intro leaf hm
      rw [hleaves] at hm
      obtain ⟨command, -, rfl⟩ := List.mem_map.1 hm
      cases hcondition : command.condition <;> simp [Leaf.of, hcondition]

/-- A guarded readout inside a box that exchanges its qubits and its bits, and an empty box. -/
def Circuit.crossedReadout : Circuit :=
  (Call.box ⟨1⟩ (.withQubits 2) [.ofIndex 0, .ofIndex 1] none).leaves
    ((Call.add ⟨.box ⟨0⟩ guardedReadout, [.ofIndex 1, .ofIndex 0], [.ofIndex 1, .ofIndex 0], none,
      some "crossed"⟩).leaves ((Call.declareBitRegister "c" 2).leaves (.withQubits 2)))

theorem Reachable.crossedReadout : Reachable .crossedReadout := by
  refine .call _ (.call _ (.call _ (.withQubits 2) ?_) ?_) ?_
  · intro body hb; cases hb
  · intro body hb
    cases hb
    exact Reachable.guardedReadout
  · intro body hb
    cases hb
    exact .withQubits 2

theorem Reachable.inline_leafList_crossedReadout :
    Build.inline.run .crossedReadout = .ok 2 (Build.inline.leaves .crossedReadout) ∧
      (Build.inline.leaves .crossedReadout).commands =
        Circuit.crossedReadout.leafList.map Leaf.command ∧
      Circuit.crossedReadout.leafList =
        [⟨.measure, [.ofIndex 0], [.ofIndex 1], [.ifBit (.ofIndex 0)], none⟩] ∧
      Build.inline.run (Build.inline.leaves .crossedReadout) =
        .ok 0 (Build.inline.leaves .crossedReadout) := by
  have hok : Build.inline.run .crossedReadout = .ok 2 (Build.inline.leaves .crossedReadout) := rfl
  have hinline := Reachable.crossedReadout.inline_leafList hok
  exact ⟨hok, hinline.2.1, rfl, hinline.2.2.2.2.2⟩

end QuantumCircuit
