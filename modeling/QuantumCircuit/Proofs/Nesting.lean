import QuantumCircuit.Proofs.NormalForm

/-! How deep documents nest. A reader never gives more than it had room for: whatever the
text looks like, writing down what was read opens no more containers at once than were allowed
while reading. The normal form may open one more, since it lists a pair for every qubit and a
pair stands one container deeper than the qubit itself. -/

namespace QuantumCircuit

namespace Json

variable {α β σ : Type}

theorem depthItems_le_iff {vs : List Json} {n : Nat} :
    depthItems vs ≤ n ↔ ∀ v ∈ vs, v.depth ≤ n := by
  induction vs with
  | nil => simp [depthItems]
  | cons v vs ih => rw [depthItems, Nat.max_le, ih, List.forall_mem_cons]

theorem depthMembers_le_iff {ms : List (String × Json)} {n : Nat} :
    depthMembers ms ≤ n ↔ ∀ m ∈ ms, m.2.depth ≤ n := by
  induction ms with
  | nil => simp [depthMembers]
  | cons m ms ih => rw [depthMembers, Nat.max_le, ih, List.forall_mem_cons]

theorem depth_array_le_iff {vs : List Json} {n : Nat} :
    (Json.array vs).depth ≤ n + 1 ↔ ∀ v ∈ vs, v.depth ≤ n := by
  rw [depth, Nat.succ_le_succ_iff, depthItems_le_iff]

theorem depth_object_le_iff {ms : List (String × Json)} {n : Nat} :
    (Json.object ms).depth ≤ n + 1 ↔ ∀ m ∈ ms, m.2.depth ≤ n := by
  rw [depth, Nat.succ_le_succ_iff, depthMembers_le_iff]

/-! ### Readers with little room -/

/-- What the reader gives is written in `n` containers inside each other, or fewer. -/
def Bounds (read : Tree → Reading α) (json : α → Json) (n : Nat) : Prop :=
  ∀ ⦃t : Tree⦄ ⦃a : α⦄, read t = .ok a → (json a).depth ≤ n

variable {read : Tree → Reading α} {json : α → Json} {n : Nat}

/-- What is written without a container is written in any number of them. -/
theorem bounds_of_depth_zero (read : Tree → Reading α) (h : ∀ a, (json a).depth = 0) (n : Nat) :
    Bounds read json n :=
  fun _ a _ => (h a).symm ▸ Nat.zero_le n

/-- A payload that may be `null`. -/
theorem Bounds.nullable (h : Bounds read json n) :
    Bounds (Tree.nullable read) (fun o => o.elim .null json) n := by
  intro t o ho
  cases o with
  | none => exact Nat.zero_le n
  | some a =>
    have hread : some <$> read t = .ok (some a) := by
      cases t with
      | null => cases ho
      | _ => exact ho
    cases hr : read t with
    | error f => rw [hr] at hread; cases hread
    | ok b =>
      rw [hr] at hread
      cases hread
      exact h hr

theorem Bounds.each (h : Bounds read json n) {items : Items} {as : List α}
    (has : items.each read = .ok as) : ∀ v ∈ as.map json, v.depth ≤ n := by
  fun_induction Items.each read items generalizing as with
  | case1 e he => cases has; simp
  | case2 e f he => cases has
  | case3 value rest ih =>
    obtain ⟨a, ha, has⟩ := bind_eq_ok_iff.1 has
    obtain ⟨bs, hbs, has⟩ := bind_eq_ok_iff.1 has
    cases has
    rw [List.map_cons, List.forall_mem_cons]
    exact ⟨h ha, ih hbs⟩

theorem Bounds.next? (h : Bounds read json n) {items rest : Items} {o : Option α}
    (ho : items.next? read = .ok (o, rest)) : ∀ a ∈ o, (json a).depth ≤ n := by
  intro a ha
  cases ha
  cases items with
  | done e => rw [Items.next?] at ho; split at ho <;> cases ho
  | item value items =>
    obtain ⟨b, hb, ho⟩ := bind_eq_ok_iff.1 ho
    cases ho
    exact h hb

theorem Bounds.next (h : Bounds read json n) {items rest : Items} {a : α}
    (ha : items.next read = .ok (a, rest)) : (json a).depth ≤ n := by
  obtain ⟨⟨o, items⟩, ho, ha⟩ := bind_eq_ok_iff.1 ha
  cases o with
  | none => cases ha
  | some a =>
    cases ha
    exact h.next? ho a rfl

/-- A field that was not known before. -/
theorem Bounds.once (h : Bounds read json n) {t : Tree} {known : Option α} {set : Option α → σ}
    {s : σ} (hs : (Json.once known (read t) >>= fun o => pure (set o)) = .ok s) :
    ∃ a, (json a).depth ≤ n ∧ s = set (some a) := by
  obtain ⟨o, ho, hs⟩ := bind_eq_ok_iff.1 hs
  cases hs
  unfold Json.once at ho
  split_ifs at ho
  cases hr : read t with
  | error f => rw [hr] at ho; cases ho
  | ok a =>
    rw [hr] at ho
    cases ho
    exact ⟨a, h hr, rfl⟩

/-- What every member keeps, the whole object keeps. -/
theorem fold_keeps {step : σ → String → Tree → Reading σ} {P : σ → Prop}
    (hstep : ∀ {s key value s'}, P s → step s key value = .ok s' → P s') {members : Members}
    {s s' : σ} (hs : P s) (h : members.fold step s = .ok s') : P s' := by
  fun_induction Members.fold step s members with
  | case1 s e he => cases h; exact hs
  | case2 s e f he => cases h
  | case3 s key value rest ih =>
    obtain ⟨k, -, h⟩ := bind_eq_ok_iff.1 h
    obtain ⟨s₁, hs₁, h⟩ := bind_eq_ok_iff.1 h
    exact ih s₁ (hstep hs hs₁) h

/-- A payload that was not mentioned is none. -/
theorem depth_le_of_mem_getD {o : Option (Option α)}
    (h : ∀ p ∈ o, (p.elim .null json).depth ≤ n) : ∀ a ∈ o.getD none, (json a).depth ≤ n := by
  intro a ha
  cases o with
  | none => cases ha
  | some p =>
    cases ha
    exact h _ rfl

theorem required_eq_ok {o : Option α} {a : α} (h : required o = .ok a) : o = some a := by
  cases o with
  | none => cases h
  | some b => cases h; rfl

/-- A reader of lists needs a container more than its items do. -/
theorem bounds_list {read : Nat → Tree → Reading α} (h : ∀ room, Bounds (read room) json room)
    (room : Nat) : Bounds (Tree.list read room) (fun as => .array (as.map json)) room := by
  intro t as has
  cases t with
  | array items =>
    cases room with
    | zero => cases has
    | succ room => exact depth_array_le_iff.2 ((h room).each has)
  | _ => cases room <;> cases has

theorem bounds_pair {first : Nat → Tree → Reading α} {second : Nat → Tree → Reading β}
    {json' : β → Json} (hfirst : ∀ room, Bounds (first room) json room)
    (hsecond : ∀ room, Bounds (second room) json' room) (room : Nat) :
    Bounds (Tree.pair first second room) (fun p => .array [json p.1, json' p.2]) room := by
  intro t p hp
  cases t with
  | array items =>
    cases room with
    | zero => cases hp
    | succ room =>
      obtain ⟨⟨a, rest⟩, ha, hp⟩ := bind_eq_ok_iff.1 hp
      obtain ⟨⟨b, rest'⟩, hb, hp⟩ := bind_eq_ok_iff.1 hp
      obtain ⟨-, -, hp⟩ := bind_eq_ok_iff.1 hp
      cases hp
      rw [depth_array_le_iff]
      simpa using ⟨(hfirst room).next ha, (hsecond room).next hb⟩
  | _ => cases room <;> cases hp

end Json

open Json

/-! ### The parts of a document -/

theorem UnitId.bounds_read (room : Nat) : Bounds (UnitId.read room) UnitId.json room := by
  intro t u hu
  obtain ⟨⟨register, index⟩, hpair, hu⟩ := bind_eq_ok_iff.1 hu
  cases hu
  have hregister (n : Nat) : Bounds Tree.text Json.string n :=
    bounds_of_depth_zero Tree.text (fun _ => rfl) n
  have hindex (n : Nat) : Bounds (fun t => UInt32.ofNat <$> t.natural UInt32.size)
      (fun i => Json.natural i.toNat) n :=
    bounds_of_depth_zero _ (fun _ => rfl) n
  exact bounds_pair hregister (bounds_list hindex) room hpair

theorem UnitId.json_depth (u : UnitId) : u.json.depth = 2 := by
  have hindex : depthItems (u.index.map fun i => Json.natural i.toNat) ≤ 0 := by
    rw [depthItems_le_iff]
    intro v hv
    obtain ⟨i, -, rfl⟩ := List.mem_map.1 hv
    exact Nat.le_refl 0
  simp only [UnitId.json, depth, depthItems]
  omega

namespace Document

/-- Units as they are written. -/
def unitsJson (us : List UnitId) : Json := .array (us.map UnitId.json)

/-- The pairs of a permutation as they are written. -/
def pairsJson (ps : List (UnitId × UnitId)) : Json :=
  .array (ps.map fun p => .array [p.1.json, p.2.json])

theorem bounds_readUnits (room : Nat) : Bounds (readUnits room) unitsJson room :=
  bounds_list UnitId.bounds_read room

theorem bounds_readPairs (room : Nat) : Bounds (readPairs room) pairsJson room :=
  bounds_list (bounds_pair UnitId.bounds_read UnitId.bounds_read) room

theorem depth_le_iff {bits qubits : List UnitId} {commands : List Command}
    {permutation : List (UnitId × UnitId)} {name : Option String} {phase : String} {n : Nat} :
    (Document.mk bits commands permutation name phase qubits).json.depth ≤ n + 1 ↔
      (unitsJson bits).depth ≤ n ∧ (Json.array (commandsJson commands)).depth ≤ n ∧
        (pairsJson permutation).depth ≤ n ∧ (unitsJson qubits).depth ≤ n := by
  rw [Document.json, depth_object_le_iff]
  cases name <;> simp [Json.optional, unitsJson, pairsJson, depth]

theorem Command.depth_le_iff {args : List UnitId} {op : Op} {opgroup : Option String} {n : Nat} :
    (Command.mk args op opgroup).json.depth ≤ n + 1 ↔
      (unitsJson args).depth ≤ n ∧ op.json.depth ≤ n := by
  rw [Command.json, depth_object_le_iff]
  cases opgroup <;> simp [Json.optional, unitsJson, depth]

theorem Op.depth_le_iff {box : Option Box} {conditional : Option Conditional} {type : OpType}
    {n : Nat} : (Op.mk box conditional type).json.depth ≤ n + 1 ↔
      (∀ b ∈ box, b.json.depth ≤ n) ∧ ∀ c ∈ conditional, c.json.depth ≤ n := by
  rw [Op.json.eq_def, depth_object_le_iff]
  cases box <;> cases conditional <;> simp [OpType.json, depth]

theorem Box.depth_le_iff {circuit : Document} {id : Uuid} {type : OpType} {n : Nat} :
    (Box.mk circuit id type).json.depth ≤ n + 1 ↔ circuit.json.depth ≤ n := by
  rw [Box.json, depth_object_le_iff]
  simp [OpType.json, depth]

theorem Conditional.depth_le_iff {op : Op} {value : UInt64} {width : UInt32} {n : Nat} :
    (Conditional.mk op value width).json.depth ≤ n + 1 ↔ op.json.depth ≤ n := by
  rw [Conditional.json, depth_object_le_iff]
  simp [Json.natural, depth]

/-- Pairs that were left out take no more room than the qubits do. -/
theorem depth_le_of_fields {bits qubits : List UnitId} {commands : List Command}
    {permutation : Option (List (UnitId × UnitId))} {n : Nat} (hbits : (unitsJson bits).depth ≤ n)
    (hcommands : (Json.array (commandsJson commands)).depth ≤ n)
    (hpermutation : ∀ ps ∈ permutation, (pairsJson ps).depth ≤ n)
    (hqubits : (unitsJson qubits).depth ≤ n) (name : Option String) (phase : String) :
    (Document.mk bits commands (permutation.getD []) name phase qubits).json.depth ≤ n + 1 := by
  refine depth_le_iff.2 ⟨hbits, hcommands, ?_, hqubits⟩
  cases permutation with
  | none => exact Nat.lt_of_lt_of_le (Nat.succ_pos _) hqubits
  | some ps => exact hpermutation ps rfl

/-! ### Documents that are read -/

/-- The fields known so far are written in `n` containers. -/
structure Draft.Within (n : Nat) (d : Draft) : Prop where
  bits : ∀ us ∈ d.bits, (unitsJson us).depth ≤ n
  commands : ∀ cs ∈ d.commands, (Json.array (commandsJson cs)).depth ≤ n
  permutation : ∀ ps ∈ d.permutation, (pairsJson ps).depth ≤ n
  qubits : ∀ us ∈ d.qubits, (unitsJson us).depth ≤ n

theorem bounds_read_succ {room : Nat}
    (hcommands : Bounds (readCommands room) (fun cs => .array (commandsJson cs)) room) :
    Bounds (read (room + 1)) Document.json (room + 1) := by
  intro t d hd
  cases t with
  | object members =>
    rw [read] at hd
    obtain ⟨draft, hdraft, hd⟩ := bind_eq_ok_iff.1 hd
    -- fields that are not containers, and keys that are passed over, change nothing here
    have hwithin : draft.Within room := by
      refine fold_keeps (P := Draft.Within room) ?_ ⟨by simp, by simp, by simp, by simp⟩ hdraft
      intro s key value s' hs hstep
      split at hstep
      · obtain ⟨us, hus, rfl⟩ := (bounds_readUnits room).once hstep
        exact { hs with bits := by simpa using hus }
      · obtain ⟨cs, hcs, rfl⟩ := hcommands.once hstep
        exact { hs with commands := by simpa using hcs }
      · obtain ⟨ps, hps, rfl⟩ := (bounds_readPairs room).once hstep
        exact { hs with permutation := by simpa using hps }
      · obtain ⟨_, -, hstep⟩ := bind_eq_ok_iff.1 hstep
        cases hstep
        exact { hs with }
      · obtain ⟨_, -, hstep⟩ := bind_eq_ok_iff.1 hstep
        cases hstep
        exact { hs with }
      · obtain ⟨us, hus, rfl⟩ := (bounds_readUnits room).once hstep
        exact { hs with qubits := by simpa using hus }
      · obtain ⟨_, -, hstep⟩ := bind_eq_ok_iff.1 hstep
        cases hstep
        exact hs
    obtain ⟨bits, hbits, hd⟩ := bind_eq_ok_iff.1 hd
    obtain ⟨commands, hcommands, hd⟩ := bind_eq_ok_iff.1 hd
    obtain ⟨phase, -, hd⟩ := bind_eq_ok_iff.1 hd
    obtain ⟨qubits, hqubits, hd⟩ := bind_eq_ok_iff.1 hd
    cases hd
    exact depth_le_of_fields (hwithin.bits _ (required_eq_ok hbits))
      (hwithin.commands _ (required_eq_ok hcommands)) hwithin.permutation
      (hwithin.qubits _ (required_eq_ok hqubits)) _ _
  | array items =>
    rw [read] at hd
    obtain ⟨⟨bits, _⟩, hbits, hd⟩ := bind_eq_ok_iff.1 hd
    obtain ⟨⟨commands, _⟩, hcommand, hd⟩ := bind_eq_ok_iff.1 hd
    obtain ⟨⟨permutation, _⟩, hpermutation, hd⟩ := bind_eq_ok_iff.1 hd
    obtain ⟨⟨name, _⟩, -, hd⟩ := bind_eq_ok_iff.1 hd
    obtain ⟨⟨phase, _⟩, -, hd⟩ := bind_eq_ok_iff.1 hd
    obtain ⟨⟨qubits, _⟩, hqubits, hd⟩ := bind_eq_ok_iff.1 hd
    obtain ⟨-, -, hd⟩ := bind_eq_ok_iff.1 hd
    cases hd
    exact depth_le_of_fields ((bounds_readUnits room).next hbits) (hcommands.next hcommand)
      ((bounds_readPairs room).next? hpermutation) ((bounds_readUnits room).next hqubits) _ _
  | _ => rw [read] at hd <;> cases hd

theorem bounds_readCommands_succ {room : Nat} (h : Bounds (Command.read room) Command.json room) :
    Bounds (readCommands (room + 1)) (fun cs => .array (commandsJson cs)) (room + 1) := by
  intro t cs hcs
  cases t with
  | array items =>
    rw [readCommands] at hcs
    simp only [commandsJson_eq_map]
    exact depth_array_le_iff.2 (h.each hcs)
  | _ => rw [readCommands] at hcs <;> cases hcs

theorem Command.bounds_read_succ {room : Nat} (hop : Bounds (Op.read room) Op.json room) :
    Bounds (Command.read (room + 1)) Command.json (room + 1) := by
  intro t c hc
  cases t with
  | object members =>
    rw [Command.read] at hc
    obtain ⟨draft, hdraft, hc⟩ := bind_eq_ok_iff.1 hc
    have hwithin : (∀ us ∈ draft.args, (unitsJson us).depth ≤ room) ∧
        ∀ op ∈ draft.op, op.json.depth ≤ room := by
      refine fold_keeps (P := fun d : Command.Draft =>
        (∀ us ∈ d.args, (unitsJson us).depth ≤ room) ∧ ∀ op ∈ d.op, op.json.depth ≤ room)
        ?_ (by simp) hdraft
      rintro s key value s' ⟨hargs, hop'⟩ hstep
      split at hstep
      · obtain ⟨us, hus, rfl⟩ := (bounds_readUnits room).once hstep
        exact ⟨by simpa using hus, hop'⟩
      · obtain ⟨op, hop, rfl⟩ := hop.once hstep
        exact ⟨hargs, by simpa using hop⟩
      all_goals
        obtain ⟨_, -, hstep⟩ := bind_eq_ok_iff.1 hstep
        cases hstep
        exact ⟨hargs, hop'⟩
    obtain ⟨args, hargs, hc⟩ := bind_eq_ok_iff.1 hc
    obtain ⟨op, hop, hc⟩ := bind_eq_ok_iff.1 hc
    cases hc
    exact Command.depth_le_iff.2 ⟨hwithin.1 _ (required_eq_ok hargs),
      hwithin.2 _ (required_eq_ok hop)⟩
  | array items =>
    rw [Command.read] at hc
    obtain ⟨⟨args, _⟩, hargs, hc⟩ := bind_eq_ok_iff.1 hc
    obtain ⟨⟨op, _⟩, hop', hc⟩ := bind_eq_ok_iff.1 hc
    obtain ⟨⟨opgroup, _⟩, -, hc⟩ := bind_eq_ok_iff.1 hc
    obtain ⟨-, -, hc⟩ := bind_eq_ok_iff.1 hc
    cases hc
    exact Command.depth_le_iff.2 ⟨(bounds_readUnits room).next hargs, hop.next hop'⟩
  | _ => rw [Command.read] at hc <;> cases hc

theorem Op.bounds_read_succ {room : Nat} (hbox : Bounds (Box.read room) Box.json room)
    (hconditional : Bounds (Conditional.read room) Conditional.json room) :
    Bounds (Op.read (room + 1)) Op.json (room + 1) := by
  intro t op hop
  cases t with
  | object members =>
    rw [Op.read] at hop
    obtain ⟨draft, hdraft, hop⟩ := bind_eq_ok_iff.1 hop
    have hwithin : (∀ o ∈ draft.box, (o.elim .null Box.json).depth ≤ room) ∧
        ∀ o ∈ draft.conditional, (o.elim .null Conditional.json).depth ≤ room := by
      refine fold_keeps (P := fun d : Op.Draft =>
        (∀ o ∈ d.box, (o.elim .null Box.json).depth ≤ room) ∧
          ∀ o ∈ d.conditional, (o.elim .null Conditional.json).depth ≤ room)
        ?_ (by simp) hdraft
      rintro s key value s' ⟨hs, hs'⟩ hstep
      split at hstep
      · obtain ⟨o, ho, rfl⟩ := hbox.nullable.once hstep
        exact ⟨by simpa using ho, hs'⟩
      · obtain ⟨o, ho, rfl⟩ := hconditional.nullable.once hstep
        exact ⟨hs, by simpa using ho⟩
      · obtain ⟨_, -, hstep⟩ := bind_eq_ok_iff.1 hstep
        cases hstep
        exact ⟨hs, hs'⟩
      · cases hstep
    obtain ⟨type, -, hop⟩ := bind_eq_ok_iff.1 hop
    cases hop
    exact Op.depth_le_iff.2 ⟨depth_le_of_mem_getD hwithin.1, depth_le_of_mem_getD hwithin.2⟩
  | array items =>
    rw [Op.read] at hop
    obtain ⟨⟨box, _⟩, hbox', hop⟩ := bind_eq_ok_iff.1 hop
    obtain ⟨⟨conditional, _⟩, hconditional', hop⟩ := bind_eq_ok_iff.1 hop
    obtain ⟨⟨type, _⟩, -, hop⟩ := bind_eq_ok_iff.1 hop
    obtain ⟨-, -, hop⟩ := bind_eq_ok_iff.1 hop
    cases hop
    exact Op.depth_le_iff.2 ⟨depth_le_of_mem_getD (hbox.nullable.next? hbox'),
      depth_le_of_mem_getD (hconditional.nullable.next? hconditional')⟩
  | _ => rw [Op.read] at hop <;> cases hop

theorem Box.bounds_read_succ {room : Nat} (h : Bounds (Document.read room) Document.json room) :
    Bounds (Box.read (room + 1)) Box.json (room + 1) := by
  intro t b hb
  cases t with
  | object members =>
    rw [Box.read] at hb
    obtain ⟨draft, hdraft, hb⟩ := bind_eq_ok_iff.1 hb
    have hwithin : ∀ d ∈ draft.circuit, d.json.depth ≤ room := by
      refine fold_keeps (P := fun d : Box.Draft => ∀ c ∈ d.circuit, c.json.depth ≤ room)
        ?_ (by simp) hdraft
      intro s key value s' hs hstep
      split at hstep
      · obtain ⟨d, hd, rfl⟩ := h.once hstep
        simpa using hd
      all_goals
        obtain ⟨_, -, hstep⟩ := bind_eq_ok_iff.1 hstep
        cases hstep
        exact hs
    obtain ⟨circuit, hcircuit, hb⟩ := bind_eq_ok_iff.1 hb
    obtain ⟨id, -, hb⟩ := bind_eq_ok_iff.1 hb
    obtain ⟨type, -, hb⟩ := bind_eq_ok_iff.1 hb
    cases hb
    exact Box.depth_le_iff.2 (hwithin _ (required_eq_ok hcircuit))
  | array items =>
    rw [Box.read] at hb
    obtain ⟨⟨circuit, _⟩, hcircuit, hb⟩ := bind_eq_ok_iff.1 hb
    obtain ⟨⟨id, _⟩, -, hb⟩ := bind_eq_ok_iff.1 hb
    obtain ⟨⟨type, _⟩, -, hb⟩ := bind_eq_ok_iff.1 hb
    obtain ⟨-, -, hb⟩ := bind_eq_ok_iff.1 hb
    cases hb
    exact Box.depth_le_iff.2 (h.next hcircuit)
  | _ => rw [Box.read] at hb <;> cases hb

theorem Conditional.bounds_read_succ {room : Nat} (hop : Bounds (Op.read room) Op.json room) :
    Bounds (Conditional.read (room + 1)) Conditional.json (room + 1) := by
  intro t c hc
  cases t with
  | object members =>
    rw [Conditional.read] at hc
    obtain ⟨draft, hdraft, hc⟩ := bind_eq_ok_iff.1 hc
    have hwithin : ∀ op ∈ draft.op, op.json.depth ≤ room := by
      refine fold_keeps (P := fun d : Conditional.Draft => ∀ op ∈ d.op, op.json.depth ≤ room)
        ?_ (by simp) hdraft
      intro s key value s' hs hstep
      split at hstep
      · obtain ⟨op, hop, rfl⟩ := hop.once hstep
        simpa using hop
      all_goals
        obtain ⟨_, -, hstep⟩ := bind_eq_ok_iff.1 hstep
        cases hstep
        exact hs
    obtain ⟨op, hop, hc⟩ := bind_eq_ok_iff.1 hc
    obtain ⟨value, -, hc⟩ := bind_eq_ok_iff.1 hc
    obtain ⟨width, -, hc⟩ := bind_eq_ok_iff.1 hc
    cases hc
    exact Conditional.depth_le_iff.2 (hwithin _ (required_eq_ok hop))
  | array items =>
    rw [Conditional.read] at hc
    obtain ⟨⟨op, _⟩, hop', hc⟩ := bind_eq_ok_iff.1 hc
    obtain ⟨⟨value, _⟩, -, hc⟩ := bind_eq_ok_iff.1 hc
    obtain ⟨⟨width, _⟩, -, hc⟩ := bind_eq_ok_iff.1 hc
    obtain ⟨-, -, hc⟩ := bind_eq_ok_iff.1 hc
    cases hc
    exact Conditional.depth_le_iff.2 (hop.next hop')
  | _ => rw [Conditional.read] at hc <;> cases hc

/-- All readers of a document keep to their room. -/
structure Bounded (room : Nat) : Prop where
  document : Bounds (Document.read room) Document.json room
  commands : Bounds (readCommands room) (fun cs => .array (commandsJson cs)) room
  command : Bounds (Command.read room) Command.json room
  op : Bounds (Op.read room) Op.json room
  box : Bounds (Box.read room) Box.json room
  conditional : Bounds (Conditional.read room) Conditional.json room

theorem bounded (room : Nat) : Bounded room := by
  induction room with
  | zero =>
    constructor <;> intro t a ha
    · cases t <;> rw [Document.read] at ha <;> cases ha
    · cases t <;> rw [readCommands] at ha <;> cases ha
    · cases t <;> rw [Command.read] at ha <;> cases ha
    · cases t <;> rw [Op.read] at ha <;> cases ha
    · cases t <;> rw [Box.read] at ha <;> cases ha
    · cases t <;> rw [Conditional.read] at ha <;> cases ha
  | succ room ih =>
    exact ⟨bounds_read_succ ih.commands, bounds_readCommands_succ ih.command,
      Command.bounds_read_succ ih.op, Op.bounds_read_succ ih.box ih.conditional,
      Box.bounds_read_succ ih.document, Conditional.bounds_read_succ ih.op⟩

/-- What was read from a text nests no deeper than texts may. -/
theorem depth_le_of_ofText {text : String} {d : Document} (h : Document.ofText text = .ok d) :
    d.json.depth ≤ depthLimit := by
  obtain ⟨d', hread, h⟩ := bind_eq_ok_iff.1 h
  dsimp only at h
  split_ifs at h
  cases h
  exact (bounded depthLimit).document hread

/-! ### Normal forms -/

/-- A pair for every qubit stands one container deeper than the qubits. -/
theorem depth_pairs_le {qubits : List UnitId} {image : UnitId → UnitId} {n : Nat}
    (h : (unitsJson qubits).depth ≤ n) :
    (pairsJson (qubits.map fun q => (q, image q))).depth ≤ n + 1 := by
  rw [pairsJson, depth_array_le_iff]
  intro v hv
  obtain ⟨p, hp, rfl⟩ := List.mem_map.1 hv
  obtain ⟨q, hq, rfl⟩ := List.mem_map.1 hp
  obtain ⟨n, rfl⟩ : ∃ m, n = m + 1 :=
    Nat.exists_eq_succ_of_ne_zero (Nat.ne_of_gt (Nat.lt_of_lt_of_le (Nat.succ_pos _) h))
  have hunit := depth_array_le_iff.1 h q.json (List.mem_map_of_mem hq)
  rw [UnitId.json_depth] at hunit
  simp [depth, depthItems, UnitId.json_depth]
  omega

/-- An operation keeps at most one of its payloads. -/
theorem Op.depth_normal_le_of_payloads (op : Op) {n : Nat}
    (hbox : ∀ b ∈ op.box, b.normal.json.depth ≤ n)
    (hconditional : ∀ c ∈ op.conditional, c.normal.json.depth ≤ n) :
    op.normal.json.depth ≤ n + 1 := by
  fun_cases Op.normal op with
  | case1 box => exact Op.depth_le_iff.2 ⟨by simpa using hbox box rfl, nofun⟩
  | case2 box conditional =>
    exact Op.depth_le_iff.2 ⟨nofun, by simpa using hconditional conditional rfl⟩
  | case3 => exact Op.depth_le_iff.2 ⟨nofun, nofun⟩

mutual

/-- The normal form takes one container more, at most. -/
theorem depth_normal_le : (d : Document) → {n : Nat} → d.json.depth ≤ n →
    d.normal.json.depth ≤ n + 1
  | ⟨bits, commands, permutation, name, phase, qubits⟩, 0, h => by
    rw [Document.json] at h
    cases h
  | ⟨bits, commands, permutation, name, phase, qubits⟩, n + 1, h => by
    obtain ⟨hbits, hcommands, -, hqubits⟩ := depth_le_iff.1 h
    rw [depth] at hcommands
    have hnormal := depth_normalAll_le commands (Nat.le_refl _)
    rw [Document.normal]
    refine depth_le_iff.2 ⟨Nat.le_succ_of_le hbits, ?_, depth_pairs_le hqubits,
      Nat.le_succ_of_le hqubits⟩
    rw [depth]
    omega

theorem depth_normalAll_le : (cs : List Command) → {n : Nat} →
    depthItems (commandsJson cs) ≤ n → depthItems (commandsJson (normalAll cs)) ≤ n + 1
  | [], n, _ => Nat.zero_le _
  | c :: cs, n, h => by
    rw [commandsJson, depthItems, Nat.max_le] at h
    rw [normalAll, commandsJson, depthItems, Nat.max_le]
    exact ⟨Command.depth_normal_le c h.1, depth_normalAll_le cs h.2⟩

theorem Command.depth_normal_le : (c : Command) → {n : Nat} → c.json.depth ≤ n →
    c.normal.json.depth ≤ n + 1
  | ⟨args, op, opgroup⟩, 0, h => by
    rw [Command.json] at h
    cases h
  | ⟨args, op, opgroup⟩, n + 1, h => by
    obtain ⟨hargs, hop⟩ := Command.depth_le_iff.1 h
    rw [Command.normal]
    exact Command.depth_le_iff.2 ⟨Nat.le_succ_of_le hargs, Op.depth_normal_le op hop⟩

theorem Op.depth_normal_le : (op : Op) → {n : Nat} → op.json.depth ≤ n →
    op.normal.json.depth ≤ n + 1
  | ⟨box, conditional, type⟩, 0, h => by
    rw [Op.json.eq_def] at h
    cases h
  | ⟨box, conditional, type⟩, n + 1, h => by
    obtain ⟨hbox, hconditional⟩ := Op.depth_le_iff.1 h
    exact Op.depth_normal_le_of_payloads _ (Box.depth_normal_le box hbox)
      (Conditional.depth_normal_le conditional hconditional)

theorem Box.depth_normal_le : (box : Option Box) → {n : Nat} → (∀ b ∈ box, b.json.depth ≤ n) →
    ∀ b ∈ box, b.normal.json.depth ≤ n + 1
  | none, _, _, _, hb => nomatch hb
  | some ⟨circuit, id, type⟩, 0, h, _, _ => by
    have hbox := h _ rfl
    rw [Box.json] at hbox
    cases hbox
  | some ⟨circuit, id, type⟩, n + 1, h, _, rfl => by
    rw [Box.normal]
    exact Box.depth_le_iff.2 (Document.depth_normal_le circuit (Box.depth_le_iff.1 (h _ rfl)))

theorem Conditional.depth_normal_le : (conditional : Option Conditional) → {n : Nat} →
    (∀ c ∈ conditional, c.json.depth ≤ n) → ∀ c ∈ conditional, c.normal.json.depth ≤ n + 1
  | none, _, _, _, hc => nomatch hc
  | some ⟨op, value, width⟩, 0, h, _, _ => by
    have hconditional := h _ rfl
    rw [Conditional.json] at hconditional
    cases hconditional
  | some ⟨op, value, width⟩, n + 1, h, _, rfl => by
    rw [Conditional.normal]
    exact Conditional.depth_le_iff.2 (Op.depth_normal_le op (Conditional.depth_le_iff.1 (h _ rfl)))

end

end Document

/-- What a text describes is written with one container more than texts may have, at most. -/
theorem Circuit.depth_document_le {text : String} {c : Circuit} (h : Circuit.ofText text = .ok c) :
    c.document.json.depth ≤ depthLimit + 1 := by
  obtain ⟨d, hread, hload⟩ := Circuit.ofReading_eq_ok_iff.1 h
  rw [Document.document_of_load d hload]
  exact Document.depth_normal_le d (Document.depth_le_of_ofText hread)

end QuantumCircuit
