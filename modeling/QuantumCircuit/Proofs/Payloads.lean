import QuantumCircuit.Proofs.Acceptance

/-! What becomes of the payloads of a document when it is loaded. An operation may carry a box
and a condition, and its type selects one of them or neither; what is not selected is neither
read nor refused, and is gone. So a circuit has all the sub-circuits and all the guards of the
document it was loaded from exactly when each of them stands beside the type that selects it. -/

namespace QuantumCircuit

/-- What an operation carries: a sub-circuit, under its identifier, or the guard that so many
bits spell a value. -/
inductive Payload where
  | box (id : Uuid)
  | guard (value : UInt64) (width : Nat)
deriving DecidableEq

/-- The type that selects the payload. -/
def Payload.type : Payload → OpType
  | .box _ => .circBox
  | .guard _ _ => .conditional

/-! ### Payloads of circuits and of documents -/

mutual

/-- The guards and the sub-circuits of a circuit, those inside its boxes too. -/
def Circuit.payloads : Circuit → List Payload
  | ⟨_, _, _, _, commands, _, _, _⟩ => commandPayloads commands

def commandPayloads : List Command → List Payload
  | [] => []
  | c :: cs => c.payloads ++ commandPayloads cs

def Command.payloads : Command → List Payload
  | ⟨op, _, _, condition, _⟩ =>
    (condition.map fun c => .guard c.value c.width).toList ++ op.payloads

def Operation.payloads : Operation → List Payload
  | .box id body => .box id :: body.payloads
  | _ => []

end

namespace Document

mutual

/-- All payloads of a document, each with the type of the operation that it stands beside: of
the operations of its commands, of those inside conditions, and of the circuits inside boxes. -/
def payloads : Document → List (OpType × Payload)
  | ⟨_, commands, _, _, _, _⟩ => payloadsAll commands

def payloadsAll : List Command → List (OpType × Payload)
  | [] => []
  | ⟨_, op, _⟩ :: cs => op.payloads ++ payloadsAll cs

def Op.payloads : Op → List (OpType × Payload)
  | ⟨box, conditional, type⟩ => Box.payloads type box ++ Conditional.payloads type conditional

def Box.payloads (type : OpType) : Option Box → List (OpType × Payload)
  | none => []
  | some ⟨circuit, id, _⟩ => (type, .box id) :: circuit.payloads

def Conditional.payloads (type : OpType) : Option Conditional → List (OpType × Payload)
  | none => []
  | some ⟨op, value, width⟩ => (type, .guard value width.toNat) :: op.payloads

end

/-! ### What is kept -/

/-- Nothing is kept that was not listed, and all of it is when each payload stands beside the
type that selects it. -/
structure Keeps (kept : List Payload) (listed : List (OpType × Payload)) : Prop where
  sublist : kept.Sublist (listed.map Prod.snd)
  eq_iff : kept = listed.map Prod.snd ↔ ∀ p ∈ listed, p.1 = p.2.type

namespace Keeps

variable {kept kept' : List Payload} {listed listed' : List (OpType × Payload)}

theorem nil : Keeps [] [] := ⟨.slnil, by simp⟩

theorem append (h : Keeps kept listed) (h' : Keeps kept' listed') :
    Keeps (kept ++ kept') (listed ++ listed') where
  sublist := by
    rw [List.map_append]
    exact h.sublist.append h'.sublist
  eq_iff := by
    rw [List.map_append, List.forall_mem_append, ← h.eq_iff, ← h'.eq_iff]
    constructor
    · -- neither part can make up for what the other one lacks
      intro heq
      have hlength := congrArg List.length heq
      rw [List.length_append, List.length_append] at hlength
      have hle := h.sublist.length_le
      have hle' := h'.sublist.length_le
      exact ⟨h.sublist.eq_of_length (by omega), h'.sublist.eq_of_length (by omega)⟩
    · rintro ⟨h₁, h₂⟩
      rw [← h₁, ← h₂]

theorem cons (p : Payload) (h : Keeps kept listed) :
    Keeps (p :: kept) ((p.type, p) :: listed) := by
  have hone : Keeps [p] [(p.type, p)] := ⟨.refl _, by simp⟩
  exact hone.append h

/-- A payload that is not selected is not kept, nor is anything inside it. -/
theorem drop {type : OpType} (p : Payload) (h : type ≠ p.type) :
    Keeps [] ((type, p) :: listed) :=
  ⟨List.nil_sublist _, by simp [h]⟩

end Keeps

theorem Box.keeps_none {type : OpType} (h : type ≠ .circBox) (box : Option Box) :
    Keeps [] (Box.payloads type box) := by
  cases box with
  | none => exact .nil
  | some box =>
    obtain ⟨circuit, id, boxType⟩ := box
    exact .drop (.box id) h

theorem Conditional.keeps_none {type : OpType} (h : type ≠ .conditional)
    (conditional : Option Conditional) : Keeps [] (Conditional.payloads type conditional) := by
  cases conditional with
  | none => exact .nil
  | some conditional =>
    obtain ⟨op, value, width⟩ := conditional
    exact .drop (.guard value width.toNat) h

theorem Op.keeps {op : Op} {op' : Operation} (h : op.load = .ok op')
    (hbodies : ∀ box body, op.box? = some box → box.circuit.load = .ok body →
      Keeps body.payloads box.circuit.payloads) : Keeps op'.payloads op.payloads := by
  rcases Op.load_eq_ok_iff.1 h with ⟨box, body, hbox, -, hload, rfl⟩ | ⟨hb, hc, rfl⟩
  · have hbody := hbodies box body hbox hload
    obtain ⟨_, conditional, type⟩ := op
    obtain ⟨circuit, id, boxType⟩ := box
    rw [box?] at hbox
    split_ifs at hbox with ht
    subst hbox ht
    have hnone : Keeps [] (Conditional.payloads .circBox conditional) :=
      Conditional.keeps_none (by simp) conditional
    have hboth := (hbody.cons (.box id)).append hnone
    rw [List.append_nil] at hboth
    exact hboth
  · obtain ⟨box, conditional, type⟩ := op
    have hboth := (Box.keeps_none hb box).append (Conditional.keeps_none hc conditional)
    have hnone : (Operation.ofType type).payloads = [] := by cases type <;> rfl
    rw [hnone]
    exact hboth

/-- A command has the guard that its arguments were split for, and the payloads of its
operation. -/
theorem payloads_of_ofArgs {args : List UnitId} {guard : Option (Nat × UInt64)} {op : Operation}
    {opgroup : Option String} {command : QuantumCircuit.Command}
    (h : QuantumCircuit.Command.ofArgs args guard op opgroup = .ok command) :
    command.payloads = (guard.map fun g => .guard g.2 g.1).toList ++ op.payloads := by
  obtain ⟨hlength, condition, ⟨hvalue, hbits⟩, rfl⟩ := QuantumCircuit.Command.ofArgs_eq_ok_iff.1 h
  rw [QuantumCircuit.Command.payloads]
  cases condition with
  | none =>
    rw [Option.map_none, eq_comm, Option.map_eq_none_iff] at hvalue
    rw [hvalue]
    rfl
  | some condition =>
    obtain ⟨⟨width, value⟩, rfl, hsame⟩ := Option.map_eq_some_iff.1 hvalue.symm
    have hwidth : condition.width = width := by
      rw [Condition.width, hbits condition rfl, List.length_map, List.length_take]
      exact Nat.min_eq_left (by omega)
    rw [Option.map_some, Option.map_some, hwidth, ← hsame]

theorem Command.keeps {c : Command} {command : QuantumCircuit.Command} (h : c.load = .ok command)
    (hbodies : ∀ box body, c.op.core.box? = some box → box.circuit.load = .ok body →
      Keeps body.payloads box.circuit.payloads) : Keeps command.payloads c.op.payloads := by
  obtain ⟨hsome, op, hop, hargs⟩ := Command.load_eq_ok_iff.1 h
  have hcore := Op.keeps hop hbodies
  rw [payloads_of_ofArgs hargs]
  obtain ⟨args, ⟨box, conditional, type⟩, opgroup⟩ := c
  by_cases ht : type = .conditional
  · subst ht
    obtain ⟨⟨inner, value, width⟩, rfl⟩ := Option.isSome_iff_exists.1 (hsome rfl)
    have hnone : Keeps [] (Box.payloads .conditional box) := Box.keeps_none (by simp) box
    exact hnone.append (hcore.cons (.guard value width.toNat))
  · rw [Op.core, Op.guard?, if_neg ht] at hcore
    rw [Op.guard, Op.guard?, if_neg ht]
    exact hcore

theorem keepsAll {ds : List Command} {cs : List QuantumCircuit.Command}
    (hloads : List.Forall₂ (fun d c => d.load = .ok c) ds cs)
    (h : ∀ d ∈ ds, ∀ c, d.load = .ok c → Keeps c.payloads d.op.payloads) :
    Keeps (commandPayloads cs) (payloadsAll ds) := by
  induction hloads with
  | nil => exact .nil
  | @cons d c ds cs hload _ ih =>
    obtain ⟨hd, hds⟩ := List.forall_mem_cons.1 h
    have hfirst := hd c hload
    obtain ⟨args, op, opgroup⟩ := d
    exact hfirst.append (ih hds)

/-- What a circuit has of the payloads of its document. -/
theorem keeps_of_load (d : Document) {c : Circuit} (h : d.load = .ok c) :
    Keeps c.payloads d.payloads := by
  induction d using box_induction generalizing c with
  | step d ih =>
    obtain ⟨-, -, -, commands, hloads, -, rfl⟩ := load_eq_ok_iff.1 h
    have hall := keepsAll hloads fun d hd c hc =>
      Command.keeps hc fun box body hbox hbody => ih d hd box hbox hbody
    obtain ⟨bits, documents, permutation, name, phase, qubits⟩ := d
    exact hall

/-- A circuit has no payload that its document does not list, and has them all exactly when each
stands beside the type that selects it. So nothing is ever lost from a document in which all
do, nor from one that is refused, and from all others something is. -/
theorem payloads_kept_iff (d : Document) :
    (∀ c, d.load = .ok c → c.payloads.Sublist (d.payloads.map Prod.snd) ∧
      (c.payloads = d.payloads.map Prod.snd ↔ ∀ p ∈ d.payloads, p.1 = p.2.type)) ∧
      ((∀ c, d.load = .ok c →
          (∀ p ∈ d.payloads, p.1 = p.2.type) ∧ c.payloads = d.payloads.map Prod.snd) ↔
        (∀ p ∈ d.payloads, p.1 = p.2.type) ∨ ¬ d.Valid) := by
  refine ⟨fun c hc => ⟨(keeps_of_load d hc).sublist, (keeps_of_load d hc).eq_iff⟩, ?_⟩
  constructor
  · intro h
    by_cases hvalid : d.Valid
    · obtain ⟨c, hc⟩ := d.exists_load_iff_valid.2 hvalid
      exact .inl (h c hc).1
    · exact .inr hvalid
  · rintro (hselected | hinvalid) c hc
    · exact ⟨hselected, (keeps_of_load d hc).eq_iff.2 hselected⟩
    · exact absurd (d.exists_load_iff_valid.1 ⟨c, hc⟩) hinvalid

/-- In a document without stray payloads the guard and the box that it guards are kept. -/
theorem payloads_kept_iff_guardedBox :
    ∃ c, (guardedBox [] [] none).load = .ok c ∧ c.payloads = [.guard 1 1, .box ⟨7⟩] := by
  obtain ⟨c, hc⟩ := exists_of_isOk (x := (guardedBox [] [] none).load) (by decide +kernel)
  have hselected : ∀ p ∈ (guardedBox [] [] none).payloads, p.1 = p.2.type := by decide +kernel
  exact ⟨c, hc, ((payloads_kept_iff _).2.2 (.inl hselected) c hc).2⟩

/-- A flip beside which a guard stands. -/
def guardBesideFlip : Document :=
  ⟨[⟨"c", [0]⟩], [⟨[⟨"q", [0]⟩], ⟨none, some ⟨.plain .x, 1, 1⟩, .x⟩, none⟩], [], none, "0.0",
    [⟨"q", [0]⟩]⟩

/-- The guard is not refused, and the flip is loaded without it. -/
theorem guard_lost : guardBesideFlip.payloads = [(.x, .guard 1 1)] ∧
    ∃ c, guardBesideFlip.load = .ok c ∧ c.payloads = [] ∧
      c.commands = [.gate .x [.ofIndex 0]] := by
  refine ⟨rfl, ?_⟩
  obtain ⟨c, hc⟩ := exists_of_isOk (x := guardBesideFlip.load) (by decide +kernel)
  obtain ⟨-, -, -, commands, hloads, -, rfl⟩ := load_eq_ok_iff.1 hc
  refine ⟨_, hc, ?_⟩
  obtain ⟨command, rest, hload, hrest, rfl⟩ := List.forall₂_cons_left_iff.1 hloads
  cases hrest
  cases hload
  exact ⟨rfl, rfl⟩

end Document

end QuantumCircuit
