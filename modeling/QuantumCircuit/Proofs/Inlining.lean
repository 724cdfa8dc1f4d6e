import QuantumCircuit.Proofs.Wiring

/-! What inlining gives on valid circuits, command by command. A command that is no box
stands for itself. A box stands for the inlined commands of its circuit, renamed; it is
refused when its circuit permutes, when its circuit cannot be inlined, or when one of
the commands would have two conditions. The commands that result fit the circuit and
hold no box. -/

namespace QuantumCircuit

theorem mapM_eq_ok_iff {ε α β : Type} {f : α → Except ε β} {as : List α} {bs : List β} :
    as.mapM f = .ok bs ↔ List.Forall₂ (fun a b => f a = .ok b) as bs := by
  induction as generalizing bs with
  | nil => cases bs <;> simp [pure, Except.pure]
  | cons a as ih =>
    rw [List.mapM_cons, bind_eq_ok_iff]
    simp only [bind_eq_ok_iff, ih, pure, Except.pure, Except.ok.injEq]
    constructor
    · rintro ⟨b, hb, bs, hbs, rfl⟩
      exact .cons hb hbs
    · rintro (_ | ⟨hb, hbs⟩)
      exact ⟨_, hb, _, hbs, rfl⟩

theorem exists_of_mem_right {α β : Type} {R : α → β → Prop} {as : List α} {bs : List β}
    (h : List.Forall₂ R as bs) {b : β} (hb : b ∈ bs) : ∃ a ∈ as, R a b := by
  obtain ⟨i, hi, rfl⟩ := List.getElem_of_mem hb
  have hlt : i < as.length := h.length_eq ▸ hi
  exact ⟨as[i], List.getElem_mem hlt, h.get hlt hi⟩

theorem Circuit.inlined_eq (c : Circuit) : c.inlined = inlineAll c.commands := by
  cases c; rw [inlined]

/-- A list of commands is inlined part by part. -/
theorem inlineAll_eq (commands : List Command) :
    inlineAll commands = commands.mapM Command.inlined >>= fun parts => .ok parts.flatten := by
  induction commands with
  | nil => rfl
  | cons command commands ih =>
    rw [inlineAll, ih, List.mapM_cons]
    cases command.inlined with
    | error e => rfl
    | ok part => cases commands.mapM Command.inlined <;> rfl

theorem inlineAll_eq_ok_iff {commands flat : List Command} :
    inlineAll commands = .ok flat ↔
      ∃ parts, List.Forall₂ (fun command part => command.inlined = .ok part) commands parts ∧
        flat = parts.flatten := by
  simp only [inlineAll_eq, bind_eq_ok_iff, mapM_eq_ok_iff, Except.ok.injEq, @eq_comm _ flat]

/-- What holds of each command and its part holds of all commands and what they are inlined to, if
it is kept when a part is put in front. -/
theorem inlineAll_rec {R : List Command → List Command → Prop} {commands flat : List Command}
    (h : inlineAll commands = .ok flat) (hnil : R [] [])
    (hcons : ∀ command ∈ commands, ∀ part rest flat, command.inlined = .ok part → R rest flat →
      R (command :: rest) (part ++ flat)) : R commands flat := by
  obtain ⟨parts, hparts, rfl⟩ := inlineAll_eq_ok_iff.1 h
  clear h
  induction hparts with
  | nil => exact hnil
  | @cons command part commands parts hpart _ ih =>
    rw [List.flatten_cons]
    refine hcons command List.mem_cons_self part commands _ hpart (ih ?_)
    exact fun d hd => hcons d (List.mem_cons_of_mem command hd)

theorem mem_inlineAll {commands flat : List Command} (h : inlineAll commands = .ok flat)
    {d : Command} (hd : d ∈ flat) :
    ∃ command ∈ commands, ∃ part, command.inlined = .ok part ∧ d ∈ part := by
  obtain ⟨parts, hparts, rfl⟩ := inlineAll_eq_ok_iff.1 h
  obtain ⟨part, hpart, hd⟩ := List.mem_flatten.1 hd
  obtain ⟨command, hcommand, hin⟩ := exists_of_mem_right hparts hpart
  exact ⟨command, hcommand, part, hin, hd⟩

theorem Command.inlined_of_not_box {command : Command} (h : command.op.isBox = false) :
    command.inlined = .ok [command] := by
  obtain ⟨op, qubits, bits, condition, opgroup⟩ := command
  cases op with
  | box id body => simp [Operation.isBox] at h
  | _ => simp [inlined]

theorem Command.inlined_box {command : Command} {id : Uuid} {body : Circuit}
    (hop : command.op = .box id body) :
    command.inlined =
      if body.permutation.isEmpty then body.inlined >>= fun inner => inner.mapM
        (Wiring.command ⟨body.qubits.zip command.qubits, body.bits.zip command.bits⟩
          command.condition)
      else .error (.unsupportedOp (.permutedBox id)) := by
  obtain ⟨op, qubits, bits, condition, opgroup⟩ := command
  cases hop
  rw [inlined]

/-- When a box is inlined, and what it stands for. -/
theorem Command.inlined_box_eq_ok_iff {command : Command} {id : Uuid} {body : Circuit}
    (hop : command.op = .box id body) (hb : Boxed body command.qubits command.bits)
    (hfits : ∀ inner, body.inlined = .ok inner →
      ∀ d ∈ inner, d.Fits body.qubits body.bits) {part : List Command} :
    command.inlined = .ok part ↔
      body.permutation = [] ∧ ∃ inner, body.inlined = .ok inner ∧
        (∀ d ∈ inner, ¬ d.Nested command.condition) ∧
        part = inner.map (Command.renamed (.ofBox body command.qubits command.bits)
          command.condition) := by
  have hmap : ∀ (inner part : List Command), (∀ d ∈ inner, d.Fits body.qubits body.bits) →
      (inner.mapM (Wiring.command ⟨body.qubits.zip command.qubits, body.bits.zip command.bits⟩
        command.condition) = .ok part ↔ (∀ d ∈ inner, ¬ d.Nested command.condition) ∧
        part = inner.map (Command.renamed (.ofBox body command.qubits command.bits)
          command.condition)) := by
    intro inner part hinner
    rw [mapM_eq_ok_iff]
    induction inner generalizing part with
    | nil => simp [List.forall₂_nil_left_iff]
    | cons d inner ih =>
      rw [List.forall₂_cons_left_iff]
      simp only [ih _ fun e he => hinner e (List.mem_cons_of_mem d he),
        hb.wiring_command _ (hinner d List.mem_cons_self), List.forall_mem_cons, List.map_cons]
      by_cases hn : d.Nested command.condition
      · simp [hn]
      · simp [hn]
  rw [inlined_box hop]
  cases hp : body.permutation with
  | cons p ps => simp
  | nil =>
    simp only [List.isEmpty_nil, if_true, bind_eq_ok_iff, true_and]
    refine exists_congr fun inner => and_congr_right fun h => ?_
    exact hmap inner part (hfits inner h)

/-- The commands of an inlined circuit fit it and hold no box. -/
theorem Circuit.Valid.inlined_fits {c : Circuit} (h : c.Valid) :
    ∀ flat, c.inlined = .ok flat →
      ∀ command ∈ flat, command.Fits c.qubits c.bits ∧ command.op.isBox = false := by
  induction h with
  | @intro c indexed permutes fits bodies ih =>
    intro flat hflat d hd
    rw [Circuit.inlined_eq] at hflat
    obtain ⟨command, hcommand, part, hpart, hd⟩ := mem_inlineAll hflat hd
    have hfit := fits command hcommand
    cases hop : command.op with
    | box id body =>
      have hinner := ih command hcommand id body hop
      obtain ⟨_, inner, hin, hn, rfl⟩ := (Command.inlined_box_eq_ok_iff hop (hfit.boxed hop)
        fun inner hin e he => (hinner inner hin e he).1).1 hpart
      obtain ⟨e, he, rfl⟩ := List.mem_map.1 hd
      exact ⟨hfit.renamed hop (hinner inner hin e he).1 (hn e he), (hinner inner hin e he).2⟩
    | _ =>
      rw [Command.inlined_of_not_box (by rw [hop]; rfl)] at hpart
      cases hpart
      rw [List.mem_singleton.1 hd]
      exact ⟨hfit, by rw [hop]; rfl⟩

/-- Inlining keeps a circuit valid. -/
theorem Circuit.Valid.with_inlined {c : Circuit} (h : c.Valid) {flat : List Command}
    (hflat : c.inlined = .ok flat) : Circuit.Valid { c with commands := flat } := by
  refine h.with_commands (fun d hd => (h.inlined_fits flat hflat d hd).1) fun d hd id body hop => ?_
  have := (h.inlined_fits flat hflat d hd).2
  rw [hop] at this
  simp [Operation.isBox] at this

end QuantumCircuit
