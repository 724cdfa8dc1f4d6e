import QuantumCircuit.Proofs.Invariant
import QuantumCircuit.Proofs.Reading

/-! When a document describes a circuit, and that a valid circuit is what its own document
describes. The units are declared again in their order; every command is split again into
condition, qubits and bits, by counts that come from its operation; and of the images of all
qubits those that move one are kept. Boxes are loaded by induction on the nesting. -/

namespace QuantumCircuit

/-! ### Permutations -/

/-- Looking up all keys in their order lists a table again. -/
theorem filterMap_lookup {α β : Type} [DecidableEq α] {l : List (α × β)} {keys : List α}
    (h : (l.map Prod.fst).Sublist keys) (hn : keys.Nodup) :
    keys.filterMap (fun k => (l.lookup k).map (k, ·)) = l := by
  induction keys generalizing l with
  | nil => simpa using h
  | cons k keys ih =>
    rw [List.nodup_cons] at hn
    rcases List.sublist_cons_iff.1 h with h | ⟨ks, hk, hks⟩
    · have hout : l.lookup k = none := lookup_eq_none_of_notMem fun hk => hn.1 (h.subset hk)
      rw [List.filterMap_cons, hout]
      exact ih h hn.2
    · obtain ⟨⟨k', v⟩, l, rfl, hk', rfl⟩ := List.map_eq_cons_iff.1 hk
      obtain rfl : k' = k := hk'
      have hrest : keys.filterMap (fun a => (((k', v) :: l).lookup a).map (a, ·))
          = keys.filterMap fun a => (l.lookup a).map (a, ·) := by
        apply List.filterMap_congr
        intro a ha
        have hne : (a == k') = false := by simpa using fun e : a = k' => hn.1 (e ▸ ha)
        rw [List.lookup_cons, hne]
      rw [List.filterMap_cons, List.lookup_cons_self, Option.map_some, hrest, ih hks hn.2]

theorem Circuit.implicitPermutation_sources (c : Circuit) :
    c.implicitPermutation.map Prod.fst = c.qubits := by
  simp [implicitPermutation, Function.comp_def]

theorem Circuit.implicitPermutation_targets (c : Circuit) :
    c.implicitPermutation.map Prod.snd = c.qubits.map c.image := by
  simp [implicitPermutation, Function.comp_def]

namespace Circuit.Valid

variable {c : Circuit}

theorem image_of_not_moved {q : Qubit} (hq : q ∉ c.moved) : c.image q = q := by
  rw [image, lookup_eq_none_of_notMem hq, Option.getD_none]

theorem image_mem (h : c.Valid) {q : Qubit} (hq : q ∈ c.qubits) : c.image q ∈ c.qubits := by
  by_cases hm : q ∈ c.moved
  · exact h.permutes.sources.subset (h.image_bijOn.mapsTo hm)
  · rwa [image_of_not_moved hm]

theorem image_injective (h : c.Valid) : Function.Injective c.image := by
  intro q r e
  by_cases hq : q ∈ c.moved
  · have himage := h.image_bijOn.mapsTo hq
    by_cases hr : r ∈ c.moved
    · exact h.image_bijOn.injOn hq hr e
    · rw [e, image_of_not_moved hr] at himage
      exact absurd himage hr
  · rw [image_of_not_moved hq] at e
    by_cases hr : r ∈ c.moved
    · exact absurd (e ▸ h.image_bijOn.mapsTo hr) hq
    · rwa [image_of_not_moved hr] at e

theorem bijection_implicit (h : c.Valid) : Bijection c.qubits c.implicitPermutation := by
  apply Bijection.of_targets
  · intro p hp
    obtain ⟨q, hq, rfl⟩ := List.mem_map.1 hp
    exact ⟨hq, h.image_mem hq⟩
  · rw [implicitPermutation_sources]
    exact h.indexed.qubits_nodup
  · rw [implicitPermutation_targets]
    exact h.indexed.qubits_nodup.map h.image_injective
  · rw [implicitPermutation_sources, implicitPermutation_targets, List.forall_mem_map]
    exact fun q hq => h.image_mem hq

/-- Of the images of all qubits, those that move one are the permutation. -/
theorem movedPairs_implicit (h : c.Valid) :
    movedPairs c.qubits c.implicitPermutation = c.permutation := by
  have hs := h.indexed.qubits_nodup.sublist h.permutes.sources
  have hn : ((c.implicitPermutation.filter fun p => p.1 ≠ p.2).map Prod.fst).Nodup := by
    have hall : (c.implicitPermutation.map Prod.fst).Nodup := by
      rw [implicitPermutation_sources]
      exact h.indexed.qubits_nodup
    exact hall.sublist (List.filter_sublist.map Prod.fst)
  rw [movedPairs, ← filterMap_lookup h.permutes.sources h.indexed.qubits_nodup]
  apply List.filterMap_congr
  intro q hq
  congr 1
  ext r
  rw [lookup_eq_some_iff_mem hs, lookup_eq_some_iff_mem hn, List.mem_filter]
  constructor
  · rintro ⟨hm, hne⟩
    obtain ⟨q, _, he⟩ := List.mem_map.1 hm
    cases he
    refine h.mem_permutation (Classical.not_not.1 fun hmoved => ?_)
    simp [image_of_not_moved hmoved] at hne
  · intro hm
    have himage : c.image q = r := by
      rw [image, (lookup_eq_some_iff_mem hs q r).2 hm, Option.getD_some]
    exact ⟨List.mem_map.2 ⟨q, hq, by rw [himage]⟩, by simpa using h.permutes.moved _ hm⟩

end Circuit.Valid

/-! ### Commands -/

theorem Operation.load_document {op : Operation} (hop : op.Admissible)
    (hbody : ∀ id body, op = .box id body → body.document.load = .ok body) :
    op.document.load = .ok op := by
  cases op with
  | gate type =>
    have hgate : type.isGate = true := hop
    rw [Operation.document, Document.Op.plain]
    cases type with
    | measure | reset | circBox | conditional => cases hgate
    | _ => rw [Document.Op.load_plain (by simp) (by simp)]; rfl
  | measure | reset =>
    rw [Operation.document, Document.Op.plain, Document.Op.load_plain (by simp) (by simp)]
    rfl
  | box id body =>
    rw [Operation.document, Document.Op.load, if_pos rfl, hbody id body rfl]
    rfl

theorem Operation.document_type_ne {op : Operation} (hop : op.Admissible) :
    op.document.type ≠ .conditional := by
  cases op with
  | gate type =>
    intro (h : type = .conditional)
    subst h
    cases hop
  | _ => simp [Operation.document, Document.Op.plain]

theorem Condition.make_self (condition : Condition) :
    Condition.make condition.bits condition.value = .ok condition := by
  simp [make, condition.bits_ne_nil, condition.length_le, condition.value_lt]

theorem Command.document_unguarded (op : Operation) (qubits : List Qubit) (bits : List Bit)
    (opgroup : Option String) : Command.document ⟨op, qubits, bits, none, opgroup⟩ =
      ⟨qubits.map Qubit.id ++ bits.map Bit.id, op.document, opgroup⟩ := by
  rw [Command.document]
  rfl

theorem Command.document_guarded (op : Operation) (qubits : List Qubit) (bits : List Bit)
    (condition : Condition) (opgroup : Option String) :
    Command.document ⟨op, qubits, bits, some condition, opgroup⟩ =
      ⟨condition.bits.map Bit.id ++ qubits.map Qubit.id ++ bits.map Bit.id,
        ⟨none, some ⟨op.document, condition.value, UInt32.ofNat condition.width⟩, .conditional⟩,
        opgroup⟩ := by
  rw [Command.document]
  rfl

/-- A command that fits is split again as it was. -/
theorem Command.load_document {command : Command} {qubits : List Qubit} {bits : List Bit}
    (hfits : command.Fits qubits bits) (hop : command.op.document.load = .ok command.op) :
    command.document.load = .ok command := by
  have htype := Operation.document_type_ne hfits.admissible
  have hq := hfits.qubit_count
  have hb := hfits.bit_count
  obtain ⟨op, args, written, condition, opgroup⟩ := command
  dsimp only at hop htype hq hb
  cases condition with
  | none =>
    rw [Command.document_unguarded, Document.Command.load_of_type_ne htype, hop]
    change Command.ofArgs _ none op opgroup = _
    rw [Command.ofArgs_none, if_pos (by simp [hq, hb])]
    simp [← hq, Function.comp_def]
  | some condition =>
    have hwidth : (UInt32.ofNat condition.width).toNat = condition.bits.length := by
      have hle := condition.length_le
      exact UInt32.toNat_ofNat_of_lt' (Nat.lt_of_le_of_lt hle (by decide))
    rw [Command.document_guarded, Document.Command.load, hop, hwidth]
    change Command.ofArgs _ (some (condition.bits.length, condition.value)) op opgroup = _
    have htake : ((condition.bits.map Bit.id ++ args.map Qubit.id ++ written.map Bit.id).take
        condition.bits.length).map Bit.mk = condition.bits := by
      simp [Function.comp_def]
    rw [Command.ofArgs_some, if_pos (by simp [hq, hb, Nat.add_assoc]), htake, condition.make_self]
    simp [Except.map, ← hq, Function.comp_def]

theorem Build.add_run_eq_ok_iff {c c' : Circuit} (hc : c.Indexed) {command : Command} :
    (Build.add command).run c = .ok () c' ↔
      command.Fits c.qubits c.bits ∧ c' = { c with commands := c.commands ++ [command] } := by
  rw [Build.add_run, ← hc.check_eq_ok_iff]
  cases c.check command <;> simp [eq_comm]

/-- The commands of a document are added when each describes a command that fits. -/
theorem Document.loadCommands_run_eq_ok_iff {c c' : Circuit} (hc : c.Indexed)
    {documents : List Document.Command} :
    (Document.loadCommands documents).run c = .ok () c' ↔
      ∃ commands, List.Forall₂ (fun d command => d.load = .ok command) documents commands ∧
        (∀ command ∈ commands, command.Fits c.qubits c.bits) ∧
        c' = { c with commands := c.commands ++ commands } := by
  induction documents generalizing c with
  | nil =>
    cases c
    simp [Document.loadCommands, eq_comm]
  | cons d documents ih =>
    have hc' : ∀ commands, Circuit.Indexed { c with commands := commands } :=
      fun commands => hc.congr rfl rfl rfl rfl
    rw [Document.loadCommands, Build.bind_run_eq_ok_iff]
    constructor
    · rintro ⟨command, _, hread, h⟩
      obtain ⟨hload, rfl⟩ := Build.ofExcept_run_eq_ok_iff.1 hread
      obtain ⟨_, c₁, hadd, h⟩ := Build.bind_run_eq_ok_iff.1 h
      obtain ⟨hfit, rfl⟩ := (Build.add_run_eq_ok_iff hc).1 hadd
      obtain ⟨commands, hloads, hfits, rfl⟩ := (ih (hc' _)).1 h
      exact ⟨command :: commands, .cons hload hloads, List.forall_mem_cons.2 ⟨hfit, hfits⟩,
        by simp⟩
    · rintro ⟨_, hall, hfits, rfl⟩
      obtain ⟨command, commands, hload, hloads, rfl⟩ := List.forall₂_cons_left_iff.1 hall
      rw [List.forall_mem_cons] at hfits
      have hadd := (Build.add_run_eq_ok_iff hc).2 ⟨hfits.1, rfl⟩
      refine ⟨command, c, Build.ofExcept_run_eq_ok_iff.2 ⟨hload, rfl⟩, ?_⟩
      refine Build.bind_run_eq_ok_iff.2 ⟨(), _, hadd, ?_⟩
      exact (ih (hc' _)).2 ⟨commands, hloads, hfits.2, by simp⟩

/-! ### Circuits -/

/-- A circuit with these units and nothing else. -/
def Circuit.ofUnits (name : Option String) (phase : String) (qubits : List Qubit)
    (bits : List Bit) : Circuit :=
  ⟨name, phase, qubits, bits, [], [], .ofList qubits, .ofList bits⟩

theorem Circuit.ofUnits_indexed (name : Option String) (phase : String) (qubits : List Qubit)
    (bits : List Bit) (hq : qubits.Nodup) (hb : bits.Nodup) :
    (Circuit.ofUnits name phase qubits bits).Indexed :=
  ⟨hq, hb, fun _ => mem_set_ofList, fun _ => mem_set_ofList⟩

/-- Units are declared when none comes twice. -/
theorem Build.declareUnits_run_eq_ok_iff (name : Option String) (phase : String)
    (qubits : List Qubit) (bits : List Bit) (c : Circuit) :
    (do Build.declareQubits qubits; Build.declareBits bits : Build Unit).run
        { Circuit.empty with name := name, phase := phase } = .ok () c ↔
      qubits.Nodup ∧ bits.Nodup ∧ c = .ofUnits name phase qubits bits := by
  have hq := firstRepeat?_eq_none_iff (∅ : Std.ExtTreeSet Qubit) qubits
  have hb := firstRepeat?_eq_none_iff (∅ : Std.ExtTreeSet Bit) bits
  have hqubitSet : (∅ : Std.ExtTreeSet Qubit).insertMany qubits = .ofList qubits :=
    Std.ExtTreeSet.ext_mem fun q => by simp
  have hbitSet : (∅ : Std.ExtTreeSet Bit).insertMany bits = .ofList bits :=
    Std.ExtTreeSet.ext_mem fun b => by simp
  simp only [Std.ExtTreeSet.not_mem_empty, not_false_eq_true, implies_true, true_and] at hq hb
  rw [EStateM.run_bind, declareQubits, declareBits, declareAll_run, ← hq, ← hb]
  cases hqubits : firstRepeat? ∅ qubits with
  | some q => simp [Kind.qubit, Circuit.empty, hqubits]
  | none =>
    cases hbits : firstRepeat? ∅ bits with
    | some b =>
      simp [Kind.qubit, Kind.bit, Kind.append, Circuit.empty, hqubits, declareAll_run, hbits]
    | none =>
      simp [Kind.qubit, Kind.bit, Kind.append, Circuit.empty, hqubits, declareAll_run, hbits,
        hqubitSet, hbitSet, Circuit.ofUnits, eq_comm]

theorem Build.setPermutation_run_eq_ok_iff {pairs : List (Qubit × Qubit)} {c c' : Circuit} :
    (Build.setPermutation pairs).run c = .ok () c' ↔
      checkPermutation c.qubitSet pairs = .ok () ∧
        c' = { c with permutation := movedPairs c.qubits pairs } := by
  rw [Build.setPermutation_run]
  cases checkPermutation c.qubitSet pairs <;> simp [eq_comm]

/-- The pairs of qubits that a document lists. -/
def Document.pairs (d : Document) : List (Qubit × Qubit) :=
  d.permutation.map fun (u, v) => (⟨u⟩, ⟨v⟩)

/-- When a document describes a circuit, and which. -/
theorem Document.load_eq_ok_iff {d : Document} {c : Circuit} :
    d.load = .ok c ↔ (d.qubits.map Qubit.mk).Nodup ∧ (d.bits.map Bit.mk).Nodup ∧
      Bijection (d.qubits.map Qubit.mk) d.pairs ∧
      ∃ commands, List.Forall₂ (fun d command => d.load = .ok command) d.commands commands ∧
        (∀ command ∈ commands, command.Fits (d.qubits.map Qubit.mk) (d.bits.map Bit.mk)) ∧
        c = { Circuit.ofUnits d.name d.phase (d.qubits.map Qubit.mk) (d.bits.map Bit.mk) with
          commands := commands, permutation := movedPairs (d.qubits.map Qubit.mk) d.pairs } := by
  obtain ⟨bits, commands, permutation, name, phase, qubits⟩ := d
  dsimp only [Document.pairs]
  have hindexed := Circuit.ofUnits_indexed name phase (qubits.map Qubit.mk) (bits.map Bit.mk)
  have hunits := Build.declareUnits_run_eq_ok_iff name phase (qubits.map Qubit.mk)
    (bits.map Bit.mk)
  have hcheck : checkPermutation (.ofList (qubits.map Qubit.mk))
      (permutation.map fun (u, v) => (⟨u⟩, ⟨v⟩)) = .ok () ↔ Bijection (qubits.map Qubit.mk) _ :=
    checkPermutation_eq_ok_iff (fun _ => mem_set_ofList) _
  rw [Document.load, Circuit.built_eq_ok_iff, ← bind_assoc, ← hcheck]
  constructor
  · rintro ⟨_, h⟩
    obtain ⟨_, c₁, h₁, h⟩ := Build.bind_run_eq_ok_iff.1 h
    obtain ⟨hq, hb, rfl⟩ := (hunits _).1 h₁
    obtain ⟨_, c₂, h₂, h₃⟩ := Build.bind_run_eq_ok_iff.1 h
    obtain ⟨loaded, hloads, hfits, rfl⟩ :=
      (Document.loadCommands_run_eq_ok_iff (hindexed hq hb)).1 h₂
    obtain ⟨hpairs, rfl⟩ := Build.setPermutation_run_eq_ok_iff.1 h₃
    exact ⟨hq, hb, hpairs, loaded, hloads, hfits, rfl⟩
  · rintro ⟨hq, hb, hpairs, loaded, hloads, hfits, rfl⟩
    have h₂ := (Document.loadCommands_run_eq_ok_iff (hindexed hq hb)).2
      ⟨loaded, hloads, hfits, rfl⟩
    refine ⟨(), Build.bind_run_eq_ok_iff.2 ⟨(), _, (hunits _).2 ⟨hq, hb, rfl⟩, ?_⟩⟩
    exact Build.bind_run_eq_ok_iff.2
      ⟨(), _, h₂, Build.setPermutation_run_eq_ok_iff.2 ⟨hpairs, rfl⟩⟩

theorem commandDocuments_eq_map (commands : List Command) :
    commandDocuments commands = commands.map Command.document := by
  induction commands with
  | nil => rfl
  | cons command commands ih => rw [commandDocuments, ih, List.map_cons]

theorem Circuit.document_eq (c : Circuit) : c.document =
    ⟨c.bits.map Bit.id, c.commands.map Command.document,
      c.implicitPermutation.map fun p => (p.1.id, p.2.id), c.name, c.phase,
      c.qubits.map Qubit.id⟩ := by
  cases c
  rw [document, commandDocuments_eq_map, implicitPermutation, List.map_map]
  rfl

/-- The circuit of a valid circuit's document is that circuit. -/
theorem Circuit.Valid.load_document {c : Circuit} (h : c.Valid) : c.document.load = .ok c := by
  induction h with
  | @intro c indexed permutes fits bodies ih =>
    have hv : c.Valid := .intro indexed permutes fits bodies
    -- the circuits in boxes load by induction, and so the commands do
    have hload : ∀ command ∈ c.commands, command.document.load = .ok command := fun command hm =>
      Command.load_document (fits command hm)
        (Operation.load_document (fits command hm).admissible (ih command hm))
    have hqubits : Std.ExtTreeSet.ofList c.qubits = c.qubitSet :=
      Std.ExtTreeSet.ext_mem fun q => by simp [indexed.mem_qubitSet]
    have hbits : Std.ExtTreeSet.ofList c.bits = c.bitSet :=
      Std.ExtTreeSet.ext_mem fun b => by simp [indexed.mem_bitSet]
    have hq : (c.qubits.map Qubit.id).map Qubit.mk = c.qubits := by simp [Function.comp_def]
    have hb : (c.bits.map Bit.id).map Bit.mk = c.bits := by simp [Function.comp_def]
    have hpairs : (c.implicitPermutation.map fun p => (p.1.id, p.2.id)).map
        (fun (u, v) => (Qubit.mk u, Qubit.mk v)) = c.implicitPermutation := by
      simp [Function.comp_def]
    rw [Circuit.document_eq, Document.load_eq_ok_iff]
    simp only [Document.pairs, hq, hb, hpairs]
    refine ⟨indexed.qubits_nodup, indexed.bits_nodup, hv.bijection_implicit, c.commands, ?_, fits,
      ?_⟩
    · rw [List.forall₂_map_left_iff, List.forall₂_same]
      exact hload
    · rw [hv.movedPairs_implicit, Circuit.ofUnits, hqubits, hbits]
      cases c
      rfl

end QuantumCircuit
