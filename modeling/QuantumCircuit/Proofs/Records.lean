import QuantumCircuit.Proofs.Heeded

/-! What the readers of records take from a value. A record is written as an object, whose members
come in any order, or as an array of its fields. Either way a reader takes each field from its
entry and looks at nothing else, except that it wants no entries beyond those it knows. -/

namespace QuantumCircuit

namespace Json

variable {α σ : Type}

/-- A field of which `known` was known, after its entry has been read. -/
def fill (known : Option α) (read : Tree → Reading α) : Option Json → Reading (Option α)
  | none => .ok known
  | some v => once known (read v.tree)

@[simp] theorem fill_none (known : Option α) (read : Tree → Reading α) :
    fill known read none = .ok known := rfl

@[simp] theorem fill_some (known : Option α) (read : Tree → Reading α) (v : Json) :
    fill known read (some v) = once known (read v.tree) := rfl

/-! ### Members -/

theorem entry_nil (p : Document.Place) (key : String) : (Json.object []).entry p key = none := rfl

theorem entry_cons (p : Document.Place) (k key : String) (v : Json) (ms : List (String × Json)) :
    (Json.object ((k, v) :: ms)).entry p key =
      if k = key then some v else (Json.object ms).entry p key := by
  simp only [entry, lookup_cons_eq_ite, eq_comm]

mutual

theorem skim_tree : ∀ v : Json, v.tree.skim = .ok ()
  | .null => by rw [tree, Tree.skim]
  | .bool _ => by rw [tree, Tree.skim]
  | .number _ => by rw [tree, Tree.skim]; rfl
  | .string _ => by rw [tree, Tree.skim]; rfl
  | .array items => by rw [tree, Tree.skim, skim_treeItems items]
  | .object members => by rw [tree, Tree.skim, skim_treeMembers members]

theorem skim_treeItems : ∀ vs : List Json, (treeItems vs).skim = .ok ()
  | [] => by rw [treeItems, Items.skim]; rfl
  | v :: vs => by rw [treeItems, Items.skim, skim_tree v, skim_treeItems vs]; rfl

theorem skim_treeMembers : ∀ ms : List (String × Json), (treeMembers ms).skim = .ok ()
  | [] => by rw [treeMembers, Members.skim]; rfl
  | (k, v) :: ms => by
    rw [treeMembers, Members.skim, skim_tree v, skim_treeMembers ms]
    rfl

end

/-- How the whole of an object changes what is known follows from how one member does, if no key
comes twice. -/
theorem fold_eq_ok_iff {step : σ → String → Tree → Reading σ}
    {R : List (String × Json) → σ → σ → Prop} (hnil : ∀ s s', R [] s s' ↔ s = s')
    (hcons : ∀ k v ms s s', k ∉ keysOf ms →
      (R ((k, v) :: ms) s s' ↔ ∃ r, step s k v.tree = .ok r ∧ R ms r s'))
    {ms : List (String × Json)} (h : (keysOf ms).Nodup) (s s' : σ) :
    (treeMembers ms).fold step s = .ok s' ↔ R ms s s' := by
  induction ms generalizing s with
  | nil =>
    rw [hnil, treeMembers, Members.fold]
    exact Except.ok.injEq s s' ▸ Iff.rfl
  | cons m ms ih =>
    obtain ⟨k, v⟩ := m
    obtain ⟨hk, hms⟩ := List.nodup_cons.1 h
    change (step s k v.tree >>= fun r => (treeMembers ms).fold step r) = .ok s' ↔ _
    rw [hcons k v ms s s' hk, bind_eq_ok_iff]
    simp only [ih hms]

/-- A member that is known changes one field, if it can be read. -/
theorem iff_once_bind {known : Option α} {x : Reading α} {set : Option α → σ} {P : σ → Prop}
    {Q : Prop} (hok : ∀ o, once known x = .ok o → (Q ↔ P (set o)))
    (herror : ∀ f, once known x = .error f → ¬Q) :
    Q ↔ ∃ r, (once known x >>= fun o => pure (set o)) = .ok r ∧ P r := by
  cases hx : once known x with
  | error f => simp [bind, Except.bind, herror f hx]
  | ok o => simp [bind, Except.bind, pure, Except.pure, hok o hx]

theorem skim_bind_iff {s : σ} {v : Json} {P : σ → Prop} :
    (∃ r, (v.tree.skim >>= fun _ => pure s) = .ok r ∧ P r) ↔ P s := by
  simp [skim_tree, bind, Except.bind, pure, Except.pure]

/-! ### Items -/

theorem next?_treeItems {read : Tree → Reading α} {vs : List Json} {o : Option α} {rest : Items} :
    (treeItems vs).next? read = .ok (o, rest) ↔
      fill none read vs[0]? = .ok o ∧ rest = treeItems (vs.drop 1) := by
  cases vs with
  | nil => simp [treeItems, Items.next?, Ending.failure?, eq_comm]
  | cons v vs =>
    cases hread : read v.tree <;>
      simp [treeItems, Items.next?, once, hread, bind, Except.bind, pure, Except.pure,
        Functor.map, Except.map, eq_comm]

theorem next_treeItems {read : Tree → Reading α} {vs : List Json} {a : α} {rest : Items} :
    (treeItems vs).next read = .ok (a, rest) ↔
      fill none read vs[0]? = .ok (some a) ∧ rest = treeItems (vs.drop 1) := by
  rw [← next?_treeItems, Items.next, bind_eq_ok_iff]
  constructor
  · rintro ⟨⟨o, items⟩, ho, h⟩
    cases o with
    | none => cases h
    | some b => cases h; exact ho
  · intro h
    exact ⟨_, h, rfl⟩

theorem close_treeItems {vs : List Json} {u : Unit} : (treeItems vs).close = .ok u ↔ vs = [] := by
  cases vs <;> simp [treeItems, Items.close, Ending.close]

/-! ### Records -/

/-- The reader wants an array or an object. -/
def RefusesScalars (read : Tree → Reading α) : Prop :=
  ∀ ⦃v : Json⦄ ⦃a : α⦄, v.depth = 0 → read v.tree ≠ .ok a

theorem refusesScalars {read : Tree → Reading α} (hnull : ∀ a, read .null ≠ .ok a)
    (hbool : ∀ b a, read (.bool b) ≠ .ok a) (hnumber : ∀ n a, read (.number n) ≠ .ok a)
    (hstring : ∀ s a, read (.string s) ≠ .ok a) : RefusesScalars read := by
  intro v a h
  cases v with
  | null => exact hnull a
  | bool b => exact hbool b a
  | number n => exact hnumber (.whole n) a
  | string s => exact hstring (.whole s) a
  | array vs => cases h
  | object ms => cases h

/-- The reader takes a record from the entries of an object or array at the given place; `Taken`
says which entries make which record. It reads nothing else and opens a container for it. -/
structure ReadsRecord (p : Document.Place) (read : Nat → Tree → Reading α)
    (Taken : Nat → (String → Option Json) → α → Prop) : Prop where
  object {room : Nat} {ms : List (String × Json)} {a : α} (h : (keysOf ms).Nodup) :
    read (room + 1) (.object (treeMembers ms)) = .ok a ↔
      (Json.object ms).Admitted p ∧ Taken room ((Json.object ms).entry p) a
  array {room : Nat} {vs : List Json} {a : α} :
    read (room + 1) (.array (treeItems vs)) = .ok a ↔
      (Json.array vs).Admitted p ∧ Taken room ((Json.array vs).entry p) a
  scalar (room : Nat) : RefusesScalars (read room)

/-- Outside operations an object may have any other members. -/
theorem admitted_object {p : Document.Place} (h : ∀ k, k ∈ p.fields ∨ p.ignores k)
    (ms : List (String × Json)) : (Json.object ms).Admitted p :=
  fun k _ => h k

end Json

open Json

namespace Document

/-! ### Circuits -/

/-- What is known of a circuit, before and after its entries have been read. -/
@[mk_iff]
structure Draft.Filled (room : Nat) (entry : String → Option Json) (d d' : Draft) : Prop where
  bits : fill d.bits (readUnits room) (entry "bits") = .ok d'.bits
  commands : fill d.commands (readCommands room) (entry "commands") = .ok d'.commands
  permutation : fill d.permutation (readPairs room) (entry "implicit_permutation") =
    .ok d'.permutation
  name : fill d.name (Tree.nullable Tree.text) (entry "name") = .ok d'.name
  phase : fill d.phase Tree.text (entry "phase") = .ok d'.phase
  qubits : fill d.qubits (readUnits room) (entry "qubits") = .ok d'.qubits

theorem read_object {room : Nat} {ms : List (String × Json)} (h : (keysOf ms).Nodup)
    {a : Document} : read (room + 1) (.object (treeMembers ms)) = .ok a ↔
      ∃ d, Draft.Filled room ((Json.object ms).entry .circuit) {} d ∧ d.finish = .ok a := by
  rw [read, bind_eq_ok_iff]
  refine exists_congr fun d => and_congr_left' ?_
  refine fold_eq_ok_iff
    (R := fun ms => Draft.Filled room ((Json.object ms).entry .circuit)) ?_ ?_ h {} d
  · rintro ⟨⟩ ⟨⟩
    simp [Draft.filled_iff, entry_nil]
  · intro k v ms s s' hout
    have hk : (Json.object ms).entry .circuit k = none := lookup_eq_none_iff_notMem.2 hout
    -- a known key fills its own field, which nothing after it fills again; others are passed over
    split
    case h_7 h₁ h₂ h₃ h₄ h₅ h₆ =>
      rw [skim_bind_iff]
      simp only [Draft.filled_iff, entry_cons, if_neg h₁, if_neg h₂, if_neg h₃, if_neg h₄,
        if_neg h₅, if_neg h₆]
    all_goals
      apply iff_once_bind <;> intro _ hread <;>
        simp [Draft.filled_iff, entry_cons, hk, hread]

theorem read_array {room : Nat} {vs : List Json} {a : Document} :
    read (room + 1) (.array (treeItems vs)) = .ok a ↔ vs.length ≤ 6 ∧
      ∃ d, Draft.Filled room ((Json.array vs).entry .circuit) {} d ∧ d.finish = .ok a := by
  rw [read]
  simp only [bind_eq_ok_iff, Prod.exists, next_treeItems, next?_treeItems, close_treeItems,
    and_assoc, exists_and_left, exists_eq_left, List.drop_drop, List.getElem?_drop,
    List.drop_eq_nil_iff]
  constructor
  · rintro ⟨bits, hbits, commands, hcommands, permutation, hpermutation, name, hname, phase,
      hphase, qubits, hqubits, hlength, -, ha⟩
    cases ha
    exact ⟨hlength, ⟨some bits, some commands, permutation, name, some phase, some qubits⟩,
      ⟨hbits, hcommands, hpermutation, hname, hphase, hqubits⟩, rfl⟩
  · rintro ⟨hlength, d, ⟨hbits, hcommands, hpermutation, hname, hphase, hqubits⟩, hfinish⟩
    obtain ⟨bits, h, hfinish⟩ := bind_eq_ok_iff.1 hfinish
    rw [required_eq_ok h] at hbits
    obtain ⟨commands, h, hfinish⟩ := bind_eq_ok_iff.1 hfinish
    rw [required_eq_ok h] at hcommands
    obtain ⟨phase, h, hfinish⟩ := bind_eq_ok_iff.1 hfinish
    rw [required_eq_ok h] at hphase
    obtain ⟨qubits, h, hfinish⟩ := bind_eq_ok_iff.1 hfinish
    rw [required_eq_ok h] at hqubits
    exact ⟨bits, hbits, commands, hcommands, d.permutation, hpermutation, d.name, hname, phase,
      hphase, qubits, hqubits, hlength, (), hfinish⟩

theorem readsRecord : ReadsRecord .circuit read fun room entry a =>
    ∃ d, Draft.Filled room entry {} d ∧ d.finish = .ok a where
  object h := (read_object h).trans
    (and_iff_right (admitted_object (by simp [Place.ignores, em]) _)).symm
  array := read_array
  scalar room := by apply refusesScalars <;> cases room <;> simp [read]

/-! ### Commands -/

/-- What is known of a command, before and after its entries have been read. -/
@[mk_iff]
structure Command.Draft.Filled (room : Nat) (entry : String → Option Json)
    (d d' : Command.Draft) : Prop where
  args : fill d.args (readUnits room) (entry "args") = .ok d'.args
  op : fill d.op (Op.read room) (entry "op") = .ok d'.op
  opgroup : fill d.opgroup (Tree.nullable Tree.text) (entry "opgroup") = .ok d'.opgroup

theorem Command.read_object {room : Nat} {ms : List (String × Json)} (h : (keysOf ms).Nodup)
    {a : Command} : Command.read (room + 1) (.object (treeMembers ms)) = .ok a ↔
      ∃ d, Command.Draft.Filled room ((Json.object ms).entry .command) {} d ∧ d.finish = .ok a := by
  rw [Command.read, bind_eq_ok_iff]
  refine exists_congr fun d => and_congr_left' ?_
  refine fold_eq_ok_iff
    (R := fun ms => Command.Draft.Filled room ((Json.object ms).entry .command)) ?_ ?_ h {} d
  · rintro ⟨⟩ ⟨⟩
    simp [Command.Draft.filled_iff, entry_nil]
  · intro k v ms s s' hout
    have hk : (Json.object ms).entry .command k = none := lookup_eq_none_iff_notMem.2 hout
    split
    case h_4 h₁ h₂ h₃ =>
      rw [skim_bind_iff]
      simp only [Command.Draft.filled_iff, entry_cons, if_neg h₁, if_neg h₂, if_neg h₃]
    all_goals
      apply iff_once_bind <;> intro _ hread <;>
        simp [Command.Draft.filled_iff, entry_cons, hk, hread]

theorem Command.read_array {room : Nat} {vs : List Json} {a : Command} :
    Command.read (room + 1) (.array (treeItems vs)) = .ok a ↔ vs.length ≤ 3 ∧
      ∃ d, Command.Draft.Filled room ((Json.array vs).entry .command) {} d ∧ d.finish = .ok a := by
  rw [Command.read]
  simp only [bind_eq_ok_iff, Prod.exists, next_treeItems, next?_treeItems, close_treeItems,
    and_assoc, exists_and_left, exists_eq_left, List.drop_drop, List.getElem?_drop,
    List.drop_eq_nil_iff]
  constructor
  · rintro ⟨args, hargs, op, hop, opgroup, hopgroup, hlength, -, ha⟩
    cases ha
    exact ⟨hlength, ⟨some args, some op, opgroup⟩, ⟨hargs, hop, hopgroup⟩, rfl⟩
  · rintro ⟨hlength, d, ⟨hargs, hop, hopgroup⟩, hfinish⟩
    obtain ⟨args, h, hfinish⟩ := bind_eq_ok_iff.1 hfinish
    rw [required_eq_ok h] at hargs
    obtain ⟨op, h, hfinish⟩ := bind_eq_ok_iff.1 hfinish
    rw [required_eq_ok h] at hop
    exact ⟨args, hargs, op, hop, d.opgroup, hopgroup, hlength, (), hfinish⟩

theorem Command.readsRecord : ReadsRecord .command Command.read fun room entry a =>
    ∃ d, Command.Draft.Filled room entry {} d ∧ d.finish = .ok a where
  object h := (Command.read_object h).trans
    (and_iff_right (admitted_object (by simp [Place.ignores, em]) _)).symm
  array := Command.read_array
  scalar room := by apply refusesScalars <;> cases room <;> simp [Command.read]

/-! ### Operations -/

/-- What is known of an operation, before and after its entries have been read. -/
@[mk_iff]
structure Op.Draft.Filled (room : Nat) (entry : String → Option Json)
    (d d' : Op.Draft) : Prop where
  box : fill d.box (Tree.nullable (Box.read room)) (entry "box") = .ok d'.box
  conditional : fill d.conditional (Tree.nullable (Conditional.read room)) (entry "conditional") =
    .ok d'.conditional
  type : fill d.type (OpType.read room) (entry "type") = .ok d'.type

theorem Op.read_object {room : Nat} {ms : List (String × Json)} (h : (keysOf ms).Nodup)
    {a : Op} : Op.read (room + 1) (.object (treeMembers ms)) = .ok a ↔
      (∀ k ∈ keysOf ms, k ∈ Place.op.fields) ∧
        ∃ d, Op.Draft.Filled room ((Json.object ms).entry .op) {} d ∧ d.finish = .ok a := by
  rw [Op.read, bind_eq_ok_iff]
  simp only [← exists_and_left, ← and_assoc]
  refine exists_congr fun d => and_congr_left' ?_
  refine fold_eq_ok_iff (R := fun ms s s' => (∀ k ∈ keysOf ms, k ∈ Place.op.fields) ∧
    Op.Draft.Filled room ((Json.object ms).entry .op) s s') ?_ ?_ h {} d
  · rintro ⟨⟩ ⟨⟩
    simp [Op.Draft.filled_iff, entry_nil, keysOf]
  · intro k v ms s s' hout
    have hk : (Json.object ms).entry .op k = none := lookup_eq_none_iff_notMem.2 hout
    split
    case h_4 h₁ h₂ h₃ =>
      -- the only record that refuses a key it does not know
      have hunknown : k ∉ Place.op.fields := by simpa [Place.fields] using ⟨h₁, h₂, h₃⟩
      simp [keysOf, throw, throwThe, MonadExceptOf.throw, hunknown]
    all_goals
      apply iff_once_bind <;> intro _ hread <;>
        simp [Op.Draft.filled_iff, entry_cons, hk, hread, keysOf, Place.fields]

theorem Op.read_array {room : Nat} {vs : List Json} {a : Op} :
    Op.read (room + 1) (.array (treeItems vs)) = .ok a ↔ vs.length ≤ 3 ∧
      ∃ d, Op.Draft.Filled room ((Json.array vs).entry .op) {} d ∧ d.finish = .ok a := by
  rw [Op.read]
  simp only [bind_eq_ok_iff, Prod.exists, next_treeItems, next?_treeItems, close_treeItems,
    and_assoc, exists_and_left, exists_eq_left, List.drop_drop, List.getElem?_drop,
    List.drop_eq_nil_iff]
  constructor
  · rintro ⟨box, hbox, conditional, hconditional, type, htype, hlength, -, ha⟩
    cases ha
    exact ⟨hlength, ⟨box, conditional, some type⟩, ⟨hbox, hconditional, htype⟩, rfl⟩
  · rintro ⟨hlength, d, ⟨hbox, hconditional, htype⟩, hfinish⟩
    obtain ⟨type, h, hfinish⟩ := bind_eq_ok_iff.1 hfinish
    rw [required_eq_ok h] at htype
    exact ⟨d.box, hbox, d.conditional, hconditional, type, htype, hlength, (), hfinish⟩

theorem Op.readsRecord : ReadsRecord .op Op.read fun room entry a =>
    ∃ d, Op.Draft.Filled room entry {} d ∧ d.finish = .ok a where
  object h := by
    rw [Op.read_object h]
    simp [Admitted, Place.ignores]
  array := Op.read_array
  scalar room := by apply refusesScalars <;> cases room <;> simp [Op.read]

/-! ### Boxes -/

/-- What is known of a box, before and after its entries have been read. -/
@[mk_iff]
structure Box.Draft.Filled (room : Nat) (entry : String → Option Json)
    (d d' : Box.Draft) : Prop where
  circuit : fill d.circuit (Document.read room) (entry "circuit") = .ok d'.circuit
  id : fill d.id Uuid.read (entry "id") = .ok d'.id
  type : fill d.type (OpType.read room) (entry "type") = .ok d'.type

theorem Box.read_object {room : Nat} {ms : List (String × Json)} (h : (keysOf ms).Nodup)
    {a : Box} : Box.read (room + 1) (.object (treeMembers ms)) = .ok a ↔
      ∃ d, Box.Draft.Filled room ((Json.object ms).entry .box) {} d ∧ d.finish = .ok a := by
  rw [Box.read, bind_eq_ok_iff]
  refine exists_congr fun d => and_congr_left' ?_
  refine fold_eq_ok_iff
    (R := fun ms => Box.Draft.Filled room ((Json.object ms).entry .box)) ?_ ?_ h {} d
  · rintro ⟨⟩ ⟨⟩
    simp [Box.Draft.filled_iff, entry_nil]
  · intro k v ms s s' hout
    have hk : (Json.object ms).entry .box k = none := lookup_eq_none_iff_notMem.2 hout
    split
    case h_4 h₁ h₂ h₃ =>
      rw [skim_bind_iff]
      simp only [Box.Draft.filled_iff, entry_cons, if_neg h₁, if_neg h₂, if_neg h₃]
    all_goals
      apply iff_once_bind <;> intro _ hread <;>
        simp [Box.Draft.filled_iff, entry_cons, hk, hread]

theorem Box.read_array {room : Nat} {vs : List Json} {a : Box} :
    Box.read (room + 1) (.array (treeItems vs)) = .ok a ↔ vs.length ≤ 3 ∧
      ∃ d, Box.Draft.Filled room ((Json.array vs).entry .box) {} d ∧ d.finish = .ok a := by
  rw [Box.read]
  simp only [bind_eq_ok_iff, Prod.exists, next_treeItems, close_treeItems, and_assoc,
    exists_and_left, exists_eq_left, List.drop_drop, List.getElem?_drop, List.drop_eq_nil_iff]
  constructor
  · rintro ⟨circuit, hcircuit, id, hid, type, htype, hlength, -, ha⟩
    cases ha
    exact ⟨hlength, ⟨some circuit, some id, some type⟩, ⟨hcircuit, hid, htype⟩, rfl⟩
  · rintro ⟨hlength, d, ⟨hcircuit, hid, htype⟩, hfinish⟩
    obtain ⟨circuit, h, hfinish⟩ := bind_eq_ok_iff.1 hfinish
    rw [required_eq_ok h] at hcircuit
    obtain ⟨id, h, hfinish⟩ := bind_eq_ok_iff.1 hfinish
    rw [required_eq_ok h] at hid
    obtain ⟨type, h, hfinish⟩ := bind_eq_ok_iff.1 hfinish
    rw [required_eq_ok h] at htype
    exact ⟨circuit, hcircuit, id, hid, type, htype, hlength, (), hfinish⟩

theorem Box.readsRecord : ReadsRecord .box Box.read fun room entry a =>
    ∃ d, Box.Draft.Filled room entry {} d ∧ d.finish = .ok a where
  object h := (Box.read_object h).trans
    (and_iff_right (admitted_object (by simp [Place.ignores, em]) _)).symm
  array := Box.read_array
  scalar room := by apply refusesScalars <;> cases room <;> simp [Box.read]

/-! ### Conditionals -/

/-- What is known of a conditional, before and after its entries have been read. -/
@[mk_iff]
structure Conditional.Draft.Filled (room : Nat) (entry : String → Option Json)
    (d d' : Conditional.Draft) : Prop where
  op : fill d.op (Op.read room) (entry "op") = .ok d'.op
  value : fill d.value readValue (entry "value") = .ok d'.value
  width : fill d.width readWidth (entry "width") = .ok d'.width

theorem Conditional.read_object {room : Nat} {ms : List (String × Json)} (h : (keysOf ms).Nodup)
    {a : Conditional} : Conditional.read (room + 1) (.object (treeMembers ms)) = .ok a ↔
      ∃ d, Conditional.Draft.Filled room ((Json.object ms).entry .conditional) {} d ∧
        d.finish = .ok a := by
  rw [Conditional.read, bind_eq_ok_iff]
  refine exists_congr fun d => and_congr_left' ?_
  refine fold_eq_ok_iff (R := fun ms =>
    Conditional.Draft.Filled room ((Json.object ms).entry .conditional)) ?_ ?_ h {} d
  · rintro ⟨⟩ ⟨⟩
    simp [Conditional.Draft.filled_iff, entry_nil]
  · intro k v ms s s' hout
    have hk : (Json.object ms).entry .conditional k = none := lookup_eq_none_iff_notMem.2 hout
    split
    case h_4 h₁ h₂ h₃ =>
      rw [skim_bind_iff]
      simp only [Conditional.Draft.filled_iff, entry_cons, if_neg h₁, if_neg h₂, if_neg h₃]
    all_goals
      apply iff_once_bind <;> intro _ hread <;>
        simp [Conditional.Draft.filled_iff, entry_cons, hk, hread]

theorem Conditional.read_array {room : Nat} {vs : List Json} {a : Conditional} :
    Conditional.read (room + 1) (.array (treeItems vs)) = .ok a ↔ vs.length ≤ 3 ∧
      ∃ d, Conditional.Draft.Filled room ((Json.array vs).entry .conditional) {} d ∧
        d.finish = .ok a := by
  rw [Conditional.read]
  simp only [bind_eq_ok_iff, Prod.exists, next_treeItems, close_treeItems, and_assoc,
    exists_and_left, exists_eq_left, List.drop_drop, List.getElem?_drop, List.drop_eq_nil_iff]
  constructor
  · rintro ⟨op, hop, value, hvalue, width, hwidth, hlength, -, ha⟩
    cases ha
    exact ⟨hlength, ⟨some op, some value, some width⟩, ⟨hop, hvalue, hwidth⟩, rfl⟩
  · rintro ⟨hlength, d, ⟨hop, hvalue, hwidth⟩, hfinish⟩
    obtain ⟨op, h, hfinish⟩ := bind_eq_ok_iff.1 hfinish
    rw [required_eq_ok h] at hop
    obtain ⟨value, h, hfinish⟩ := bind_eq_ok_iff.1 hfinish
    rw [required_eq_ok h] at hvalue
    obtain ⟨width, h, hfinish⟩ := bind_eq_ok_iff.1 hfinish
    rw [required_eq_ok h] at hwidth
    exact ⟨op, hop, value, hvalue, width, hwidth, hlength, (), hfinish⟩

theorem Conditional.readsRecord : ReadsRecord .conditional Conditional.read fun room entry a =>
    ∃ d, Conditional.Draft.Filled room entry {} d ∧ d.finish = .ok a where
  object h := (Conditional.read_object h).trans
    (and_iff_right (admitted_object (by simp [Place.ignores, em]) _)).symm
  array := Conditional.read_array
  scalar room := by apply refusesScalars <;> cases room <;> simp [Conditional.read]

end Document

end QuantumCircuit
