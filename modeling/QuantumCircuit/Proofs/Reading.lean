import QuantumCircuit.Document.Json
import QuantumCircuit.Document.Read
import QuantumCircuit.Proofs.Spelling

/-! Documents that are written can be read back. Reading the tree of a document that was
written succeeds exactly when there is room for its depth, and then gives the document; when
there is not, the text is refused as not well-formed, because nothing else can be wrong with
it. Every reader is shown to have this property, from scalars up to whole documents. A text
has room for 127 open containers. -/

namespace QuantumCircuit

namespace Uuid

/-! ### Identifiers -/

theorem length_hexDigits (count n : Nat) : (hexDigits count n).length = count := by
  induction count generalizing n with
  | zero => rfl
  | succ count ih => simp [hexDigits, ih]

theorem hexNumber?_hexDigits {count n : Nat} (h : n < 16 ^ count) :
    Json.hexNumber? (hexDigits count n) = some n := by
  induction count generalizing n with
  | zero =>
    obtain rfl : n = 0 := by omega
    rfl
  | succ count ih =>
    have hdiv := ih (n := n / 16) (by rw [Nat.pow_succ] at h; omega)
    have hmod := Json.hexValue?_hexDigit (n := n % 16) (by omega)
    rw [Json.hexNumber?] at hdiv ⊢
    simp only [hexDigits, List.foldlM_append, hdiv, List.foldlM_cons, List.foldlM_nil, hmod]
    simp
    omega

theorem hexDigit_ne_hyphen (n : Nat) : Json.hexDigit (n % 16) ≠ '-' := by
  have all : ∀ k ∈ List.range 16, Json.hexDigit k ≠ '-' := by decide
  exact all _ (List.mem_range.2 (by omega))

theorem hyphen_notMem_hexDigits (count n : Nat) : '-' ∉ hexDigits count n := by
  induction count generalizing n with
  | zero => simp [hexDigits]
  | succ count ih => simp [hexDigits, ih, (hexDigit_ne_hyphen n).symm]

theorem filter_hyphenate {ds : List Char} (h : '-' ∉ ds) :
    (hyphenate ds).filter (· != '-') = ds := by
  have hgroup : ∀ i, (ds.drop i).take 4 ++ ds.drop (i + 4) = ds.drop i := fun i => by
    rw [← List.drop_drop, List.take_append_drop]
  have hall : ds.filter (· != '-') = ds := by
    rw [List.filter_eq_self]
    intro c hc
    simpa using fun hc' : c = '-' => h (hc' ▸ hc)
  calc (hyphenate ds).filter (· != '-')
      = (ds.take 8 ++ ((ds.drop 8).take 4 ++ ((ds.drop 12).take 4
          ++ ((ds.drop 16).take 4 ++ ds.drop 20)))).filter (· != '-') := by
        simp [hyphenate]
    _ = ds.filter (· != '-') := by
        rw [hgroup 16, hgroup 12, hgroup 8, List.take_append_drop]
    _ = ds := hall

/-- The text of an identifier is read back. -/
theorem ofText?_text (u : Uuid) : ofText? u.text = some u := by
  have hlen := length_hexDigits 32 u.bits.toNat
  have hnumber : Json.hexNumber? (hexDigits 32 u.bits.toNat) = some u.bits.toNat :=
    hexNumber?_hexDigits u.bits.isLt
  have hfilter := filter_hyphenate (hyphen_notMem_hexDigits 32 u.bits.toNat)
  have hhyphenated : (hyphenate (hexDigits 32 u.bits.toNat)).length = 36 := by
    simp [hyphenate, hlen]
  simp [ofText?, text, hhyphenated, ofHyphenated?, hfilter, ofDigits?, hlen, hnumber]

end Uuid

namespace Json

variable {α β σ : Type}

/-! ### Room -/

/-- The answer `a` when there is room for the depth. -/
def inRoom (room depth : Nat) (a : α) : Reading α :=
  if depth ≤ room then .ok a else .error .malformed

/-- The reader gives `a` for the written value `v`, whenever there is room for `v`. -/
def Reads (read : Nat → Tree → Reading α) (v : Json) (a : α) : Prop :=
  ∀ room, read room v.tree = inRoom room v.depth a

theorem inRoom_zero (room : Nat) (a : α) : inRoom room 0 a = .ok a := rfl

theorem inRoom_succ (room depth : Nat) (a : α) :
    inRoom (room + 1) (depth + 1) a = inRoom room depth a := by
  simp [inRoom]

/-- One reading after the other has room when both have. -/
theorem bind_inRoom {x : Reading α} {k : α → Reading β} {room d e : Nat} {a : α} {b : β}
    (hx : x = inRoom room d a) (hk : k a = inRoom room e b) :
    x >>= k = inRoom room (max d e) b := by
  subst hx
  by_cases hd : d ≤ room
  · simp only [inRoom, hd, if_true, Nat.max_le, true_and] at hk ⊢
    exact hk
  · simp only [inRoom, hd, if_false, Nat.max_le, false_and]
    rfl

theorem bind_inRoom_ok {x : Reading α} {k : α → Reading β} {room d : Nat} {a : α} {b : β}
    (hx : x = inRoom room d a) (hk : k a = .ok b) : x >>= k = inRoom room d b := by
  rw [bind_inRoom hx (hk.trans (inRoom_zero room b).symm), Nat.max_zero]

theorem map_inRoom {x : Reading α} {room d : Nat} {a : α} (f : α → β)
    (hx : x = inRoom room d a) : f <$> x = inRoom room d (f a) := by
  rw [map_eq_pure_bind]
  exact bind_inRoom_ok hx rfl

/-! ### Scalars, arrays and objects -/

theorem reads_text (s : String) : Reads (fun _ => Tree.text) (.string s) s := fun _ => rfl

theorem toNat?_ofNat {n : Nat} (h : n < UInt64.size) : (Numeral.ofNat n).toNat? = some n := by
  have hvalue : Numeral.digitsValue (Nat.toDigits 10 n) = n := Nat.ofDigitChars_ten_toDigits
  rw [Numeral.toNat?, Numeral.ofNat, hvalue, if_pos h]
  rfl

theorem natural_natural {n bound : Nat} (hn : n < bound) (hbound : bound ≤ UInt64.size) :
    (Json.natural n).tree.natural bound = .ok n := by
  have hvalue := toNat?_ofNat (Nat.lt_of_lt_of_le hn hbound)
  simp only [natural, tree, Tree.natural, Lexeme.whole, bind, Except.bind, hvalue]
  exact if_pos hn

theorem each_treeItems {read : Nat → Tree → Reading α} {json : α → Json} {as : List α}
    (h : ∀ a ∈ as, Reads read (json a) a) (room : Nat) :
    (treeItems (as.map json)).each (read room) = inRoom room (depthItems (as.map json)) as := by
  induction as with
  | nil => rfl
  | cons a as ih =>
    have hrest := ih fun b hb => h b (List.mem_cons_of_mem a hb)
    exact bind_inRoom (h a List.mem_cons_self room) (bind_inRoom_ok hrest rfl)

/-- A written list is read item by item. -/
theorem reads_list {read : Nat → Tree → Reading α} {json : α → Json} {as : List α}
    (h : ∀ a ∈ as, Reads read (json a) a) :
    Reads (Tree.list read) (.array (as.map json)) as := by
  intro room
  cases room with
  | zero => rfl
  | succ room => exact (each_treeItems h room).trans (inRoom_succ room _ as).symm

theorem next_item {read : Tree → Reading α} {t : Tree} {rest : Items} {room d : Nat} {a : α}
    (h : read t = inRoom room d a) :
    (Items.item t rest).next read = inRoom room d (a, rest) :=
  bind_inRoom_ok (bind_inRoom_ok h rfl) rfl

theorem reads_pair {first : Nat → Tree → Reading α} {second : Nat → Tree → Reading β} {v w : Json}
    {a : α} {b : β} (hv : Reads first v a) (hw : Reads second w b) :
    Reads (Tree.pair first second) (.array [v, w]) (a, b) := by
  intro room
  cases room with
  | zero => rfl
  | succ room =>
    rw [depth, depthItems, depthItems, depthItems, Nat.max_zero, inRoom_succ]
    change ((Items.item v.tree (.item w.tree (.done .closed))).next (first room) >>= fun p =>
      p.2.next (second room) >>= fun q => do q.2.close; return (p.1, q.1)) = _
    exact bind_inRoom (next_item (hv room)) (bind_inRoom_ok (next_item (hw room)) rfl)

/-- One member of a written object, and then those after it. -/
theorem fold_member {step : σ → String → Tree → Reading σ} {s t r : σ} {k : String} {v : Json}
    {ms : List (String × Json)} {room : Nat} (hstep : step s k v.tree = inRoom room v.depth t)
    (hrest : (treeMembers ms).fold step t = inRoom room (depthMembers ms) r) :
    (treeMembers ((k, v) :: ms)).fold step s = inRoom room (depthMembers ((k, v) :: ms)) r := by
  change (step s k v.tree >>= fun t => (treeMembers ms).fold step t) = _
  exact bind_inRoom hstep hrest

end Json

open Json

/-! ### The parts of a document -/

theorem Document.reads_width (n : UInt32) :
    Reads (fun _ => Document.readWidth) (.natural n.toNat) n := by
  intro room
  dsimp only
  rw [Document.readWidth, natural_natural n.toNat_lt (by decide)]
  exact congrArg Except.ok UInt32.ofNat_toNat

theorem Document.reads_value (n : UInt64) :
    Reads (fun _ => Document.readValue) (.natural n.toNat) n := by
  intro room
  dsimp only
  rw [Document.readValue, natural_natural n.toNat_lt (by decide)]
  exact congrArg Except.ok UInt64.ofNat_toNat

theorem UnitId.reads (u : UnitId) : Reads UnitId.read u.json u := by
  have hindex : Reads (Tree.list fun _ => Document.readWidth)
      (.array (u.index.map fun i => Json.natural i.toNat)) u.index :=
    reads_list fun i _ => Document.reads_width i
  intro room
  exact bind_inRoom_ok (reads_pair (reads_text u.register) hindex room) rfl

theorem UnitId.json_plain (u : UnitId) : u.json.Plain := by
  have hindex : ∀ v ∈ u.index.map fun i => Json.natural i.toNat, v.Plain := by
    intro v hv
    obtain ⟨i, -, rfl⟩ := List.mem_map.1 hv
    exact .natural (Nat.lt_trans i.toNat_lt (by decide))
  refine .array ?_
  simpa using ⟨Plain.string u.register, Plain.array hindex⟩

theorem OpType.reads (type : OpType) : Reads OpType.read type.json type := by
  intro room
  have hname : OpType.ofText type.name = .ok type := by
    rw [OpType.ofText, OpType.ofName?_name]
  have hread : OpType.read room (.string (.whole type.name)) = OpType.ofText type.name := by
    cases room <;> rfl
  simp [OpType.json, tree, hread, hname, depth, inRoom_zero]

theorem Uuid.reads (u : Uuid) : Reads (fun _ => Uuid.read) (.string u.text) u := by
  intro room
  simp only [Uuid.read, tree, Tree.text, Lexeme.whole, bind, Except.bind, Uuid.ofText?_text]
  rfl

namespace Document

theorem reads_units (us : List UnitId) : Reads readUnits (.array (us.map UnitId.json)) us :=
  reads_list fun u _ => u.reads

theorem reads_pairs (ps : List (UnitId × UnitId)) :
    Reads readPairs (.array (ps.map fun (u, v) => .array [u.json, v.json])) ps :=
  reads_list fun p _ => reads_pair p.1.reads p.2.reads

/-! ### Documents -/

/-- A field that is not known yet is read into its place. -/
theorem once_none {α σ : Type} {x : Reading α} {room d : Nat} {a : α} (set : Option α → σ)
    (hx : x = inRoom room d a) :
    (once none x >>= fun known => pure (set known)) = inRoom room d (set (some a)) :=
  bind_inRoom_ok (map_inRoom some hx) rfl

theorem reads_document {commands : List Document.Command}
    (hcommands : Reads readCommands (.array (commandsJson commands)) commands)
    (bits qubits : List UnitId) (permutation : List (UnitId × UnitId)) (name : Option String)
    (phase : String) :
    Reads Document.read (Document.mk bits commands permutation name phase qubits).json
      ⟨bits, commands, permutation, name, phase, qubits⟩ := by
  intro room
  cases room with
  | zero => rw [Document.json]; rfl
  | succ room =>
    rw [Document.json, tree, depth, inRoom_succ, Document.read]
    refine bind_inRoom_ok (a := ⟨some bits, some commands, some permutation, name.map some,
      some phase, some qubits⟩) ?_ (by cases name <;> rfl)
    refine fold_member (once_none (Draft.mk · none none none none none) (reads_units bits room)) ?_
    refine fold_member (once_none (Draft.mk _ · none none none none) (hcommands room)) ?_
    refine fold_member
      (once_none (Draft.mk _ _ · none none none) (reads_pairs permutation room)) ?_
    cases name with
    | none =>
      refine fold_member (once_none (Draft.mk _ _ _ none · none) (reads_text phase room)) ?_
      exact fold_member (once_none (Draft.mk _ _ _ none _ ·) (reads_units qubits room)) rfl
    | some name =>
      refine fold_member (once_none (Draft.mk _ _ _ · none none)
        (map_inRoom some (reads_text name room))) ?_
      refine fold_member (once_none (Draft.mk _ _ _ _ · none) (reads_text phase room)) ?_
      exact fold_member (once_none (Draft.mk _ _ _ _ _ ·) (reads_units qubits room)) rfl

theorem reads_command {op : Op} (hop : Reads Op.read op.json op) (args : List UnitId)
    (opgroup : Option String) :
    Reads Command.read (Command.mk args op opgroup).json ⟨args, op, opgroup⟩ := by
  intro room
  cases room with
  | zero => rw [Command.json]; rfl
  | succ room =>
    rw [Command.json, tree, depth, inRoom_succ, Command.read]
    refine bind_inRoom_ok (a := ⟨some args, some op, opgroup.map some⟩) ?_
      (by cases opgroup <;> rfl)
    refine fold_member (once_none (Command.Draft.mk · none none) (reads_units args room)) ?_
    refine fold_member (once_none (Command.Draft.mk _ · none) (hop room)) ?_
    cases opgroup with
    | none => rfl
    | some opgroup =>
      exact fold_member (once_none (Command.Draft.mk _ _ ·)
        (map_inRoom some (reads_text opgroup room))) rfl

theorem reads_box {circuit : Document} (hcircuit : Reads Document.read circuit.json circuit)
    (id : Uuid) (type : OpType) :
    Reads Box.read (Box.mk circuit id type).json ⟨circuit, id, type⟩ := by
  intro room
  cases room with
  | zero => rw [Box.json]; rfl
  | succ room =>
    rw [Box.json, tree, depth, inRoom_succ, Box.read]
    refine bind_inRoom_ok (a := ⟨some circuit, some id, some type⟩) ?_ rfl
    refine fold_member (once_none (Box.Draft.mk · none none) (hcircuit room)) ?_
    refine fold_member (once_none (Box.Draft.mk _ · none) (id.reads room)) ?_
    exact fold_member (once_none (Box.Draft.mk _ _ ·) (type.reads room)) rfl

theorem reads_conditional {op : Op} (hop : Reads Op.read op.json op) (value : UInt64)
    (width : UInt32) :
    Reads Conditional.read (Conditional.mk op value width).json ⟨op, value, width⟩ := by
  intro room
  cases room with
  | zero => rw [Conditional.json]; rfl
  | succ room =>
    rw [Conditional.json, tree, depth, inRoom_succ, Conditional.read]
    refine bind_inRoom_ok (a := ⟨some op, some value, some width⟩) ?_ rfl
    refine fold_member (once_none (Conditional.Draft.mk · none none) (hop room)) ?_
    refine fold_member (once_none (Conditional.Draft.mk _ · none) (reads_value value room)) ?_
    exact fold_member (once_none (Conditional.Draft.mk _ _ ·) (reads_width width room)) rfl

theorem nullable_box {box : Box} {room : Nat}
    (h : Box.read room box.json.tree = inRoom room box.json.depth box) :
    box.json.tree.nullable (fun t => Box.read room t) = inRoom room box.json.depth (some box) := by
  obtain ⟨circuit, id, type⟩ := box
  exact map_inRoom some h

theorem nullable_conditional {conditional : Conditional} {room : Nat}
    (h : Conditional.read room conditional.json.tree
      = inRoom room conditional.json.depth conditional) :
    conditional.json.tree.nullable (fun t => Conditional.read room t)
      = inRoom room conditional.json.depth (some conditional) := by
  obtain ⟨op, value, width⟩ := conditional
  exact map_inRoom some h

theorem reads_op {box : Option Box} {conditional : Option Conditional}
    (hbox : ∀ b ∈ box, Reads Box.read b.json b)
    (hconditional : ∀ c ∈ conditional, Reads Conditional.read c.json c) (type : OpType) :
    Reads Op.read (Op.mk box conditional type).json ⟨box, conditional, type⟩ := by
  intro room
  cases room with
  | zero => rw [Op.json.eq_def]; rfl
  | succ room =>
    rw [Op.json.eq_def, tree, depth, inRoom_succ, Op.read]
    refine bind_inRoom_ok (a := ⟨box.map some, conditional.map some, some type⟩) ?_
      (by cases box <;> cases conditional <;> rfl)
    cases box with
    | none =>
      cases conditional with
      | none => exact fold_member (once_none (Op.Draft.mk none none ·) (type.reads room)) rfl
      | some c =>
        refine fold_member (once_none (Op.Draft.mk none · none)
          (nullable_conditional (hconditional c rfl room))) ?_
        exact fold_member (once_none (Op.Draft.mk none _ ·) (type.reads room)) rfl
    | some b =>
      refine fold_member (once_none (Op.Draft.mk · none none) (nullable_box (hbox b rfl room))) ?_
      cases conditional with
      | none => exact fold_member (once_none (Op.Draft.mk _ none ·) (type.reads room)) rfl
      | some c =>
        refine fold_member (once_none (Op.Draft.mk _ · none)
          (nullable_conditional (hconditional c rfl room))) ?_
        exact fold_member (once_none (Op.Draft.mk _ _ ·) (type.reads room)) rfl

theorem commandsJson_eq_map (cs : List Command) : commandsJson cs = cs.map Command.json := by
  induction cs with
  | nil => rfl
  | cons c cs ih => rw [commandsJson, ih, List.map_cons]

theorem reads_commands {cs : List Command} (h : ∀ c ∈ cs, Reads Command.read c.json c) :
    Reads readCommands (.array (commandsJson cs)) cs := by
  intro room
  rw [commandsJson_eq_map]
  cases room with
  | zero => rw [tree, readCommands]; rfl
  | succ room =>
    rw [tree, depth, inRoom_succ, readCommands]
    exact each_treeItems h room

mutual

/-- A document that was written is read back, when there is room for it. -/
theorem reads : ∀ d : Document, Reads Document.read d.json d
  | ⟨bits, commands, permutation, name, phase, qubits⟩ =>
    reads_document (reads_commands (reads_all commands)) bits qubits permutation name phase

theorem reads_all : ∀ cs : List Command, ∀ c ∈ cs, Reads Command.read c.json c
  | [], _, hc => absurd hc List.not_mem_nil
  | ⟨args, op, opgroup⟩ :: cs, c, hc =>
    (List.mem_cons.1 hc).elim (fun h => h ▸ reads_command (Op.reads op) args opgroup)
      (reads_all cs c)

theorem Op.reads : ∀ op : Op, Reads Op.read op.json op
  | ⟨box, conditional, type⟩ =>
    reads_op (Box.reads_option box) (Conditional.reads_option conditional) type

theorem Box.reads_option : ∀ (box : Option Box), ∀ b ∈ box, Reads Box.read b.json b
  | none, _, hb => nomatch hb
  | some ⟨circuit, id, type⟩, _, rfl => reads_box (reads circuit) id type

theorem Conditional.reads_option : ∀ (conditional : Option Conditional), ∀ c ∈ conditional,
    Reads Conditional.read c.json c
  | none, _, hc => nomatch hc
  | some ⟨op, value, width⟩, _, rfl => reads_conditional (Op.reads op) value width

end

/-! ### Texts of documents -/

theorem units_plain (us : List UnitId) : (Json.array (us.map UnitId.json)).Plain := by
  refine .array fun v hv => ?_
  obtain ⟨u, -, rfl⟩ := List.mem_map.1 hv
  exact u.json_plain

theorem pairs_plain (ps : List (UnitId × UnitId)) :
    (Json.array (ps.map fun (u, v) => .array [u.json, v.json])).Plain := by
  refine .array fun v hv => ?_
  obtain ⟨p, -, rfl⟩ := List.mem_map.1 hv
  exact .array (by simpa using ⟨p.1.json_plain, p.2.json_plain⟩)

mutual

theorem json_plain : ∀ d : Document, d.json.Plain
  | ⟨bits, commands, permutation, name, phase, qubits⟩ => by
    have hcommands := Plain.array (commandsJson_plain commands)
    rw [Document.json]
    refine .object ?_
    cases name <;> simp [Json.optional, units_plain, pairs_plain, hcommands, Plain.string]

theorem commandsJson_plain : ∀ cs : List Command, ∀ v ∈ commandsJson cs, v.Plain
  | [] => by simp [commandsJson]
  | ⟨args, op, opgroup⟩ :: cs => by
    have hop := Op.json_plain op
    have hcommand : (Command.mk args op opgroup).json.Plain := by
      rw [Command.json]
      refine .object ?_
      cases opgroup <;> simp [Json.optional, units_plain, hop, Plain.string]
    simpa [commandsJson] using ⟨hcommand, commandsJson_plain cs⟩

theorem Op.json_plain : ∀ op : Op, op.json.Plain
  | ⟨box, conditional, type⟩ => by
    have hbox := Box.json_plain box
    have hconditional := Conditional.json_plain conditional
    rw [Op.json.eq_def]
    refine .object ?_
    cases box <;> cases conditional <;> simp_all [OpType.json, Plain.string]

theorem Box.json_plain : ∀ (box : Option Box), ∀ b ∈ box, b.json.Plain
  | none, _, hb => nomatch hb
  | some ⟨circuit, id, type⟩, _, rfl => by
    have hcircuit := Document.json_plain circuit
    rw [Box.json]
    exact .object (by simp [hcircuit, OpType.json, Plain.string])

theorem Conditional.json_plain : ∀ (conditional : Option Conditional), ∀ c ∈ conditional,
    c.json.Plain
  | none, _, hc => nomatch hc
  | some ⟨op, value, width⟩, _, rfl => by
    have hop := Op.json_plain op
    have hwidth : width.toNat < UInt64.size := Nat.lt_trans width.toNat_lt (by decide)
    rw [Conditional.json]
    exact .object (by simp [hop, Plain.natural value.toNat_lt, Plain.natural hwidth])

end

/-- The text of a document is read back, when no more containers are open at once than a text
may have; else it is not well-formed. -/
theorem ofText_text (d : Document) (indented : Bool) :
    Document.ofText (d.json.text indented) = inRoom depthLimit d.json.depth d := by
  -- the text gives the tree of the document, whatever the layout
  rw [Document.ofText, Json.fromText, Json.readText, d.json_plain.ofText_text]
  exact bind_inRoom_ok (d.reads depthLimit) rfl

end Document

end QuantumCircuit
