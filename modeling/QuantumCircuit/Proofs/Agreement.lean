import QuantumCircuit.Proofs.Records
import QuantumCircuit.Proofs.RoundTrip

/-! Reading a document from its text and reading it from the value of that text come to the same.
A reader takes the same from values that are alike, as long as both have the room they need; and
the value of a text is like what the text spells. So neither the order of keys counts, nor what
stands under a key that is passed over. -/

namespace QuantumCircuit

namespace Json

open Document (Place)

variable {α β : Type}

/-- What the one reader takes from a value, the other takes from any value like it. -/
def Agrees (p : Place) (room room' : Nat) (read read' : Tree → Reading α) : Prop :=
  ∀ ⦃v w : Json⦄ ⦃a : α⦄, Alike p v w → v.depth ≤ room → w.depth ≤ room' →
    read v.tree = .ok a → read' w.tree = .ok a

variable {p : Place} {room room' : Nat} {read read' : Tree → Reading α}

/-! ### Scalars -/

/-- A reader that refuses arrays and objects sees no difference between values that are alike. -/
theorem agrees_of_scalar (harray : ∀ items a, read (.array items) ≠ .ok a)
    (hobject : ∀ members a, read (.object members) ≠ .ok a) : Agrees p room room' read read := by
  intro v w a h _ _ hread
  cases h with
  | scalar => exact hread
  | array => rw [tree] at hread; exact absurd hread (harray _ _)
  | object => rw [tree] at hread; exact absurd hread (hobject _ _)

theorem agrees_text : Agrees p room room' Tree.text Tree.text :=
  agrees_of_scalar (by simp [Tree.text]) (by simp [Tree.text])

theorem agrees_natural (bound : Nat) :
    Agrees p room room' (Tree.natural bound) (Tree.natural bound) :=
  agrees_of_scalar (by simp [Tree.natural]) (by simp [Tree.natural])

/-- Only the answer is changed. -/
theorem Agrees.map (h : Agrees p room room' read read') (f : α → β) :
    Agrees p room room' (fun t => f <$> read t) (fun t => f <$> read' t) := by
  intro v w b hvw hv hw hb
  obtain ⟨a, ha, rfl⟩ := map_eq_ok_iff.1 hb
  exact map_eq_ok_iff.2 ⟨a, h hvw hv hw ha, rfl⟩

theorem Agrees.bind (h : Agrees p room room' read read') (f : α → Reading β) :
    Agrees p room room' (fun t => read t >>= f) (fun t => read' t >>= f) := by
  intro v w b hvw hv hw hb
  obtain ⟨a, ha, hb⟩ := bind_eq_ok_iff.1 hb
  exact bind_eq_ok_iff.2 ⟨a, h hvw hv hw ha, hb⟩

theorem nullable_of_ne_null {read : Tree → Reading α} {v : Json} (h : v ≠ .null) :
    v.tree.nullable read = some <$> read v.tree := by
  cases v with
  | null => exact absurd rfl h
  | _ => rfl

theorem Agrees.nullable (h : Agrees p room room' read read') :
    Agrees p room room' (Tree.nullable read) (Tree.nullable read') := by
  intro v w o hvw hv hw ho
  by_cases hnull : v = .null
  · subst hnull
    cases hvw
    exact ho
  · have hw' : w ≠ .null := by
      rintro rfl
      cases hvw
      exact hnull rfl
    rw [nullable_of_ne_null hnull] at ho
    rw [nullable_of_ne_null hw']
    exact h.map some hvw hv hw ho

/-! ### Entries -/

/-- Two entries are both missing, or alike and with the room they need. -/
def EntryAlike (p : Place) (room room' : Nat) : Option Json → Option Json → Prop :=
  Option.Rel fun v w => Alike p v w ∧ v.depth ≤ room ∧ w.depth ≤ room'

theorem Agrees.fill (h : Agrees p room room' read read') {x y : Option Json}
    (hxy : EntryAlike p room room' x y) {o : Option α} (ho : fill none read x = .ok o) :
    fill none read' y = .ok o := by
  cases hxy with
  | none => exact ho
  | some hvw => exact h.map some hvw.1 hvw.2.1 hvw.2.2 ho

theorem Alike.entryAlike {v w : Json} (h : Alike p v w) (hv : v.depth ≤ room + 1)
    (hw : w.depth ≤ room' + 1) {key : String} (hkey : key ∈ p.fields) :
    EntryAlike (p.under key) room room' (v.entry p key) (w.entry p key) := by
  cases hx : v.entry p key with
  | none =>
    rw [h.entry_eq_none hkey hx]
    exact .none
  | some x =>
    obtain ⟨y, hy, hxy⟩ := h.entry hkey hx
    rw [hy]
    exact .some ⟨hxy, depth_le_of_entry hv hx, depth_le_of_entry hw hy⟩

theorem getElem?_entryAlike {vs ws : List Json} (hlength : vs.length = ws.length)
    (h : ∀ i v w, vs[i]? = some v → ws[i]? = some w → Alike (p.item i) v w)
    (hv : (Json.array vs).depth ≤ room + 1) (hw : (Json.array ws).depth ≤ room' + 1) (i : Nat) :
    EntryAlike (p.item i) room room' vs[i]? ws[i]? := by
  by_cases hi : i < vs.length
  · have hi' : i < ws.length := hlength ▸ hi
    rw [List.getElem?_eq_getElem hi, List.getElem?_eq_getElem hi']
    refine .some ⟨h i _ _ (List.getElem?_eq_getElem hi) (List.getElem?_eq_getElem hi'), ?_, ?_⟩
    · exact depth_array_le_iff.1 hv _ (List.getElem_mem hi)
    · exact depth_array_le_iff.1 hw _ (List.getElem_mem hi')
  · rw [List.getElem?_eq_none (by omega), List.getElem?_eq_none (by omega)]
    exact .none

/-! ### Containers -/

/-- Without room there are only scalars. -/
theorem agrees_of_no_room (hscalar : RefusesScalars read)
    (hroom : room = 0 ∨ room' = 0) : Agrees p room room' read read' := by
  intro v w a h hv hw hread
  cases h with
  | scalar hd => exact absurd hread (hscalar hd)
  | array => simp only [depth] at hv hw; omega
  | object => simp only [depth] at hv hw; omega

/-- A reader of arrays, by what it does with their items. -/
theorem agrees_of_array (hscalar : RefusesScalars read)
    (hobject : ∀ members a, read (.object members) ≠ .ok a)
    (harray : ∀ vs ws a, (∀ i, EntryAlike (p.item i) room room' vs[i]? ws[i]?) →
      read (.array (treeItems vs)) = .ok a → read' (.array (treeItems ws)) = .ok a) :
    Agrees p (room + 1) (room' + 1) read read' := by
  intro v w a h hv hw hread
  cases h with
  | scalar hd => exact absurd hread (hscalar hd)
  | array hlength h =>
    rw [tree] at hread ⊢
    exact harray _ _ a (getElem?_entryAlike hlength h hv hw) hread
  | object => rw [tree] at hread; exact absurd hread (hobject _ _)

theorem Agrees.each (h : Agrees p room room' read read') {vs ws : List Json}
    (hvw : ∀ i : Nat, EntryAlike p room room' vs[i]? ws[i]?) {as : List α}
    (has : (treeItems vs).each read = .ok as) : (treeItems ws).each read' = .ok as := by
  induction vs generalizing ws as with
  | nil =>
    cases ws with
    | nil => exact has
    | cons w ws => cases hvw 0
  | cons v vs ih =>
    cases ws with
    | nil => cases hvw 0
    | cons w ws =>
      obtain ⟨a, ha, has⟩ := bind_eq_ok_iff.1 has
      obtain ⟨bs, hbs, has⟩ := bind_eq_ok_iff.1 has
      cases has
      have hhead : EntryAlike p room room' (some v) (some w) := hvw 0
      cases hhead with
      | some hhead =>
        have hrest := ih (fun i => hvw (i + 1)) hbs
        refine bind_eq_ok_iff.2 ⟨a, h hhead.1 hhead.2.1 hhead.2.2 ha, ?_⟩
        exact bind_eq_ok_iff.2 ⟨bs, hrest, rfl⟩

theorem list_scalar (read : Nat → Tree → Reading α) (room : Nat) :
    RefusesScalars (Tree.list read room) := by
  apply refusesScalars <;> cases room <;> simp [Tree.list]

theorem agrees_list {read : Nat → Tree → Reading α}
    (h : ∀ room room', Agrees .other room room' (read room) (read room')) (room room' : Nat) :
    Agrees .other room room' (Tree.list read room) (Tree.list read room') := by
  cases room with
  | zero => exact agrees_of_no_room (list_scalar read 0) (.inl rfl)
  | succ room =>
    cases room' with
    | zero => exact agrees_of_no_room (list_scalar read _) (.inr rfl)
    | succ room' =>
      refine agrees_of_array (list_scalar read _) (by simp [Tree.list]) ?_
      intro vs ws as hvw has
      exact (h room room').each hvw has

theorem pair_array {first : Nat → Tree → Reading α} {second : Nat → Tree → Reading β}
    {vs : List Json} {q : α × β} :
    Tree.pair first second (room + 1) (.array (treeItems vs)) = .ok q ↔ vs[2]? = none ∧
      fill none (first room) vs[0]? = .ok (some q.1) ∧
        fill none (second room) vs[1]? = .ok (some q.2) := by
  rw [Tree.pair, List.getElem?_eq_none_iff]
  simp only [bind_eq_ok_iff, Prod.exists, next_treeItems, close_treeItems, and_assoc,
    exists_and_left, exists_eq_left, List.drop_drop, List.getElem?_drop, List.drop_eq_nil_iff]
  constructor
  · rintro ⟨a, ha, b, hb, hlength, -, hq⟩
    cases hq
    exact ⟨hlength, ha, hb⟩
  · rintro ⟨hlength, ha, hb⟩
    exact ⟨q.1, ha, q.2, hb, hlength, (), rfl⟩

theorem pair_scalar (first : Nat → Tree → Reading α) (second : Nat → Tree → Reading β)
    (room : Nat) : RefusesScalars (Tree.pair first second room) := by
  apply refusesScalars <;> cases room <;> simp [Tree.pair]

theorem agrees_pair {first : Nat → Tree → Reading α} {second : Nat → Tree → Reading β}
    (hfirst : ∀ room room', Agrees .other room room' (first room) (first room'))
    (hsecond : ∀ room room', Agrees .other room room' (second room) (second room'))
    (room room' : Nat) :
    Agrees .other room room' (Tree.pair first second room) (Tree.pair first second room') := by
  cases room with
  | zero => exact agrees_of_no_room (pair_scalar first second 0) (.inl rfl)
  | succ room =>
    cases room' with
    | zero => exact agrees_of_no_room (pair_scalar first second _) (.inr rfl)
    | succ room' =>
      refine agrees_of_array (pair_scalar first second _) (by simp [Tree.pair]) ?_
      intro vs ws q hvw hq
      obtain ⟨hend, ha, hb⟩ := pair_array.1 hq
      have hend' : ws[2]? = none := by
        have hrel := hvw 2
        rw [hend] at hrel
        cases h : ws[2]? with
        | none => rfl
        | some w => rw [h] at hrel; cases hrel
      exact pair_array.2 ⟨hend', (hfirst room room').fill (hvw 0) ha,
        (hsecond room room').fill (hvw 1) hb⟩

/-! ### Records -/

theorem ReadsRecord.agrees {read : Nat → Tree → Reading α}
    {Taken : Nat → (String → Option Json) → α → Prop} (h : ReadsRecord p read Taken)
    (htaken : ∀ e e', (∀ key ∈ p.fields, EntryAlike (p.under key) room room' (e key) (e' key)) →
      ∀ a, Taken room e a → Taken room' e' a) :
    Agrees p (room + 1) (room' + 1) (read (room + 1)) (read (room' + 1)) := by
  intro v w a hvw hv hw hread
  have hentries : ∀ key ∈ p.fields, EntryAlike (p.under key) room room' (v.entry p key)
      (w.entry p key) := fun key hkey => hvw.entryAlike hv hw hkey
  cases hvw with
  | scalar hd => exact absurd hread (h.scalar _ hd)
  | array hlength hitems =>
    rw [tree, h.array] at hread
    rw [tree, h.array]
    exact ⟨(Alike.array hlength hitems).admitted hread.1, htaken _ _ hentries a hread.2⟩
  | object hms hns hkeys hmembers =>
    rw [tree, h.object hms] at hread
    rw [tree, h.object hns]
    exact ⟨(Alike.object hms hns hkeys hmembers).admitted hread.1, htaken _ _ hentries a hread.2⟩

end Json

open Json

/-! ### The parts of a document -/

theorem UnitId.agrees_read (room room' : Nat) :
    Agrees .other room room' (UnitId.read room) (UnitId.read room') := by
  have hindex (room room' : Nat) : Agrees .other room room'
      (fun t => UInt32.ofNat <$> t.natural UInt32.size)
      (fun t => UInt32.ofNat <$> t.natural UInt32.size) :=
    (agrees_natural UInt32.size).map UInt32.ofNat
  exact (agrees_pair (fun _ _ => agrees_text) (agrees_list hindex) room room').bind _

theorem OpType.read_object {room : Nat} {ms : List (String × Json)} {type : OpType} :
    OpType.read (room + 1) (.object (treeMembers ms)) = .ok type ↔
      ∃ name, ms = [(name, .null)] ∧ OpType.ofText name = .ok type := by
  constructor
  · intro h
    cases ms with
    | nil => cases h
    | cons m ms =>
      obtain ⟨name, v⟩ := m
      rw [treeMembers, OpType.read] at h
      obtain ⟨_, hname, h⟩ := bind_eq_ok_iff.1 h
      cases hname
      obtain ⟨type', htype, h⟩ := bind_eq_ok_iff.1 h
      cases v with
      | null =>
        cases ms with
        | nil => cases h; exact ⟨name, rfl, htype⟩
        | cons m ms => cases h
      | _ => cases h
  · rintro ⟨name, rfl, hname⟩
    rw [treeMembers, OpType.read]
    exact bind_eq_ok_iff.2 ⟨name, rfl, bind_eq_ok_iff.2 ⟨type, hname, rfl⟩⟩

/-- Where all keys are heeded, an object with one member is like no other. -/
theorem Json.Alike.eq_of_singleton {name : String} {ns : List (String × Json)}
    (h : Alike .other (.object [(name, .null)]) (.object ns)) : ns = [(name, .null)] := by
  cases h with
  | scalar hd => cases hd
  | object _ hns hkeys hmembers =>
    have honly : ∀ k ∈ keysOf ns, k = name := by
      intro k hk
      by_contra hne
      have hnone := (hkeys k rfl).1 (by rw [lookup_cons_eq_ite, if_neg hne]; rfl)
      exact lookup_eq_none_iff_notMem.1 hnone hk
    match ns, hns with
    | [], _ => simpa using (hkeys name rfl).2 rfl
    | [(k, v)], _ =>
      obtain rfl : k = name := honly k List.mem_cons_self
      cases hmembers k .null v rfl (by simp) (by simp)
      rfl
    | (k, v) :: (l, w) :: rest, hns =>
      have hk : k = name := honly k List.mem_cons_self
      have hl : l = name := honly l (List.mem_cons_of_mem k List.mem_cons_self)
      exact absurd (hk.trans hl.symm ▸ List.mem_cons_self) (List.nodup_cons.1 hns).1

theorem OpType.agrees_read (room room' : Nat) :
    Agrees .other room room' (OpType.read room) (OpType.read room') := by
  intro v w type h hv hw hread
  cases h with
  | scalar hd =>
    cases v with
    | array vs => cases hd
    | object ms => cases hd
    | string s =>
      rw [tree, OpType.read] at hread ⊢
      exact hread
    | _ => cases room <;> cases hread
  | array => cases room <;> cases hread
  | object hms hns hkeys hmembers =>
    cases room with
    | zero => cases hread
    | succ room =>
      cases room' with
      | zero => cases hw
      | succ room' =>
        rw [tree] at hread ⊢
        obtain ⟨name, rfl, hname⟩ := OpType.read_object.1 hread
        have hns := (Alike.object hms hns hkeys hmembers).eq_of_singleton
        exact OpType.read_object.2 ⟨name, hns, hname⟩

theorem Uuid.agrees_read {p : Document.Place} (room room' : Nat) :
    Agrees p room room' Uuid.read Uuid.read :=
  agrees_text.bind _

namespace Document

theorem agrees_readUnits (room room' : Nat) :
    Agrees .other room room' (readUnits room) (readUnits room') :=
  agrees_list UnitId.agrees_read room room'

theorem agrees_readPairs (room room' : Nat) :
    Agrees .other room room' (readPairs room) (readPairs room') :=
  agrees_list (agrees_pair UnitId.agrees_read UnitId.agrees_read) room room'

/-- The readers of the parts of a document, with different room. -/
structure ReadersAgree (room room' : Nat) : Prop where
  circuit : Agrees .circuit room room' (Document.read room) (Document.read room')
  commands : Agrees .commands room room' (readCommands room) (readCommands room')
  command : Agrees .command room room' (Command.read room) (Command.read room')
  op : Agrees .op room room' (Op.read room) (Op.read room')
  box : Agrees .box room room' (Box.read room) (Box.read room')
  conditional : Agrees .conditional room room' (Conditional.read room) (Conditional.read room')

theorem readCommands_scalar (room : Nat) : RefusesScalars (readCommands room) := by
  apply refusesScalars <;> cases room <;> simp [readCommands]

section Step

variable {room room' : Nat} (h : ReadersAgree room room')

include h

theorem ReadersAgree.circuit_succ :
    Agrees .circuit (room + 1) (room' + 1) (read (room + 1)) (read (room' + 1)) := by
  refine readsRecord.agrees ?_
  rintro e e' he a ⟨d, hd, hfinish⟩
  have hunits := agrees_readUnits room room'
  exact ⟨d, ⟨hunits.fill (he "bits" (by decide)) hd.bits,
    h.commands.fill (he "commands" (by decide)) hd.commands,
    (agrees_readPairs room room').fill (he "implicit_permutation" (by decide)) hd.permutation,
    agrees_text.nullable.fill (he "name" (by decide)) hd.name,
    agrees_text.fill (he "phase" (by decide)) hd.phase,
    hunits.fill (he "qubits" (by decide)) hd.qubits⟩, hfinish⟩

theorem ReadersAgree.commands_succ : Agrees .commands (room + 1) (room' + 1)
    (readCommands (room + 1)) (readCommands (room' + 1)) := by
  refine agrees_of_array (readCommands_scalar _) (by simp [readCommands]) ?_
  intro vs ws cs hvw hcs
  rw [readCommands] at hcs ⊢
  exact h.command.each hvw hcs

theorem ReadersAgree.command_succ : Agrees .command (room + 1) (room' + 1)
    (Command.read (room + 1)) (Command.read (room' + 1)) := by
  refine Command.readsRecord.agrees ?_
  rintro e e' he a ⟨d, hd, hfinish⟩
  exact ⟨d, ⟨(agrees_readUnits room room').fill (he "args" (by decide)) hd.args,
    h.op.fill (he "op" (by decide)) hd.op,
    agrees_text.nullable.fill (he "opgroup" (by decide)) hd.opgroup⟩, hfinish⟩

theorem ReadersAgree.op_succ :
    Agrees .op (room + 1) (room' + 1) (Op.read (room + 1)) (Op.read (room' + 1)) := by
  refine Op.readsRecord.agrees ?_
  rintro e e' he a ⟨d, hd, hfinish⟩
  exact ⟨d, ⟨h.box.nullable.fill (he "box" (by decide)) hd.box,
    h.conditional.nullable.fill (he "conditional" (by decide)) hd.conditional,
    (OpType.agrees_read room room').fill (he "type" (by decide)) hd.type⟩, hfinish⟩

theorem ReadersAgree.box_succ :
    Agrees .box (room + 1) (room' + 1) (Box.read (room + 1)) (Box.read (room' + 1)) := by
  refine Box.readsRecord.agrees ?_
  rintro e e' he a ⟨d, hd, hfinish⟩
  exact ⟨d, ⟨h.circuit.fill (he "circuit" (by decide)) hd.circuit,
    (Uuid.agrees_read room room').fill (he "id" (by decide)) hd.id,
    (OpType.agrees_read room room').fill (he "type" (by decide)) hd.type⟩, hfinish⟩

theorem ReadersAgree.conditional_succ : Agrees .conditional (room + 1) (room' + 1)
    (Conditional.read (room + 1)) (Conditional.read (room' + 1)) := by
  refine Conditional.readsRecord.agrees ?_
  rintro e e' he a ⟨d, hd, hfinish⟩
  exact ⟨d, ⟨h.op.fill (he "op" (by decide)) hd.op,
    ((agrees_natural UInt64.size).map UInt64.ofNat).fill (he "value" (by decide)) hd.value,
    ((agrees_natural UInt32.size).map UInt32.ofNat).fill (he "width" (by decide)) hd.width⟩,
    hfinish⟩

end Step

theorem readersAgree_of_no_room {room room' : Nat} (h : room = 0 ∨ room' = 0) :
    ReadersAgree room room' where
  circuit := agrees_of_no_room (readsRecord.scalar room) h
  commands := agrees_of_no_room (readCommands_scalar room) h
  command := agrees_of_no_room (Command.readsRecord.scalar room) h
  op := agrees_of_no_room (Op.readsRecord.scalar room) h
  box := agrees_of_no_room (Box.readsRecord.scalar room) h
  conditional := agrees_of_no_room (Conditional.readsRecord.scalar room) h

theorem readersAgree (room room' : Nat) : ReadersAgree room room' := by
  -- both readers open a container where one does, so the rooms shrink together
  induction room generalizing room' with
  | zero => exact readersAgree_of_no_room (.inl rfl)
  | succ room ih =>
    cases room' with
    | zero => exact readersAgree_of_no_room (.inr rfl)
    | succ room' =>
      have h := ih room'
      exact ⟨h.circuit_succ, h.commands_succ, h.command_succ, h.op_succ, h.box_succ,
        h.conditional_succ⟩

/-- Values that are alike are read as the same document. -/
theorem read_iff_of_alike {v w : Json} (h : Alike .circuit v w) {room room' : Nat}
    (hv : v.depth ≤ room) (hw : w.depth ≤ room') (d : Document) :
    Document.read room v.tree = .ok d ↔ Document.read room' w.tree = .ok d :=
  ⟨(readersAgree room room').circuit h hv hw, (readersAgree room' room).circuit h.symm hw hv⟩

end Document

/-! ### Texts and values -/

namespace Circuit

theorem ofValue_eq_ok_iff {v : Json} {c : Circuit} : Circuit.ofValue v = .ok c ↔
    ∃ d, Document.read v.depth v.tree = .ok d ∧ d.load = .ok c := by
  rw [Circuit.ofValue, Circuit.ofReading_eq_ok_iff]
  refine exists_congr fun d => and_congr_left' ?_
  rw [Document.ofValue, Json.fromValue]
  cases Document.read v.depth v.tree <;> simp [Except.mapError]

theorem ofText_eq_ok_iff {text : String} {c : Circuit} {w : Json}
    (htree : Tree.ofText text = (w.tree, true)) : Circuit.ofText text = .ok c ↔
      ∃ d, Document.read depthLimit w.tree = .ok d ∧ d.load = .ok c := by
  rw [Circuit.ofText, Circuit.ofReading_eq_ok_iff]
  refine exists_congr fun d => and_congr_left' ?_
  rw [Document.ofText, Json.fromText, readText_eq_ok_iff, htree]
  simp

theorem ofValue_iff_of_alike {v w : Json} (h : Alike .circuit v w) (c : Circuit) :
    Circuit.ofValue v = .ok c ↔ Circuit.ofValue w = .ok c := by
  rw [ofValue_eq_ok_iff, ofValue_eq_ok_iff]
  refine exists_congr fun d => and_congr_left' ?_
  exact Document.read_iff_of_alike h (Nat.le_refl _) (Nat.le_refl _) d

theorem ofText_iff_ofValue {text : String} {v : Json} (hparse : Json.parse text = .ok v)
    (honce : (Tree.ofText text).1.keysOnce) (c : Circuit) :
    v.Ordered ∧ (Circuit.ofText text = .ok c ↔ Circuit.ofValue v = .ok c) := by
  obtain ⟨w, htree, hw, hdepth, rfl⟩ := exists_of_parse hparse honce
  refine ⟨hw.sorted_ordered, ?_⟩
  rw [ofText_eq_ok_iff htree, ofValue_eq_ok_iff]
  refine exists_congr fun d => and_congr_left' ?_
  exact Document.read_iff_of_alike (hw.alike_sorted .circuit) hdepth (Nat.le_refl _) d

/-- A text without repeated keys whose value can be read gives a circuit exactly when that value
gives the same one. So does any other such text whose value differs only in members that are
passed over; the order of its keys is not even seen in its value. -/
theorem ofText_agrees_ofValue {text : String} {v : Json} (hparse : Json.parse text = .ok v)
    (honce : (Tree.ofText text).1.keysOnce) (c : Circuit) :
    (Circuit.ofText text = .ok c ↔ Circuit.ofValue v = .ok c) ∧
      ∀ text' v', Json.parse text' = .ok v' → (Tree.ofText text').1.keysOnce →
        v'.pruned .circuit = v.pruned .circuit →
        (Circuit.ofText text' = .ok c ↔ Circuit.ofText text = .ok c) := by
  obtain ⟨hordered, hpaths⟩ := ofText_iff_ofValue hparse honce c
  refine ⟨hpaths, ?_⟩
  intro text' v' hparse' honce' hpruned
  obtain ⟨hordered', hpaths'⟩ := ofText_iff_ofValue hparse' honce' c
  -- from text to value, to what both values have in common, and back
  rw [hpaths', hpaths, ofValue_iff_of_alike (hordered'.alike_pruned .circuit), hpruned,
    ← ofValue_iff_of_alike (hordered.alike_pruned .circuit)]

end Circuit

/-- The document of a flip with its keys in another order, and with a remark. -/
def Json.remarkedFlip : Json :=
  .object [("remark", .string "flip"), ("qubits", .array [UnitId.json ⟨"q", [0]⟩]),
    ("phase", .string "0.0"),
    ("implicit_permutation", .array [.array [UnitId.json ⟨"q", [0]⟩, UnitId.json ⟨"q", [0]⟩]]),
    ("commands", .array [.object [("op", .object [("type", .string "X")]),
      ("args", .array [UnitId.json ⟨"q", [0]⟩])]]),
    ("bits", .array [])]

theorem Json.remarkedFlip_plain : Json.remarkedFlip.Plain := by
  have hunit := UnitId.json_plain ⟨"q", [0]⟩
  have hunits : (Json.array [UnitId.json ⟨"q", [0]⟩]).Plain := .array (by simpa using hunit)
  have hpairs : (Json.array [.array [UnitId.json ⟨"q", [0]⟩, UnitId.json ⟨"q", [0]⟩]]).Plain :=
    .array (by simpa using Plain.array (by simpa using hunit))
  have hop : (Json.object [("type", .string "X")]).Plain :=
    .object (by simpa using Plain.string "X")
  have hcommands : (Json.array [.object [("op", .object [("type", .string "X")]),
      ("args", .array [UnitId.json ⟨"q", [0]⟩])]]).Plain :=
    .array (by simpa using Plain.object (by simpa using ⟨hop, hunits⟩))
  have hbits : (Json.array []).Plain := .array (by simp)
  exact .object (by simpa using
    ⟨Plain.string "flip", hunits, Plain.string "0.0", hpairs, hcommands, hbits⟩)

theorem Json.pruned_remarkedFlip :
    remarkedFlip.sorted.pruned .circuit = Circuit.flip.document.json.pruned .circuit := rfl

/-- The text of a flip, its value, and the text with the remark all give the flip. -/
theorem Circuit.ofText_agrees_ofValue_remarkedFlip :
    Circuit.ofText (Circuit.flip.text false) = .ok .flip ∧
      Circuit.ofValue Circuit.flip.value = .ok .flip ∧
      Circuit.ofText (Json.remarkedFlip.text true) = .ok .flip := by
  have hvalid : Circuit.flip.Valid := (Reachable.boxed 0).valid
  have hdepth : Circuit.flip.document.json.depth ≤ depthLimit := by decide +kernel
  have hparse := Circuit.flip.document.json_plain.parse_text hdepth false
  have htext : Circuit.ofText (Circuit.flip.text false) = .ok .flip := by
    rw [hvalid.ofText_text, if_pos hdepth]
  have honce : (Tree.ofText (Circuit.flip.text false)).1.keysOnce := by
    rw [Circuit.text, Circuit.flip.document.json_plain.ofText_text]
    decide +kernel
  have hremarked : (Tree.ofText (Json.remarkedFlip.text true)).1.keysOnce := by
    rw [remarkedFlip_plain.ofText_text]
    decide +kernel
  obtain ⟨hpaths, hpruned⟩ := Circuit.ofText_agrees_ofValue hparse honce .flip
  have hparse' := remarkedFlip_plain.parse_text (by decide +kernel) true
  refine ⟨htext, hpaths.1 htext, (hpruned _ _ hparse' hremarked ?_).2 htext⟩
  rw [pruned_remarkedFlip, Circuit.flip.document.json_ordered.sorted_eq]

end QuantumCircuit
