import QuantumCircuit.Proofs.Loading

/-! Documents in normal form. A document may list only some of the qubits in its permutation,
in any order, and its operations may carry payloads that their types do not ask for. Reading
it and writing the circuit again removes this freedom and nothing else: what is written is the
normal form, which can be said without speaking of circuits. So a document is written back as
it was exactly when it is in normal form, and the normal form describes the same circuit. -/

namespace QuantumCircuit

theorem exists_of_isOk {ε α : Type} {x : Except ε α} (h : x.isOk = true) : ∃ a, x = .ok a := by
  cases x with
  | error e => cases h
  | ok a => exact ⟨a, rfl⟩

/-! ### Normal forms -/

mutual

/-- The document with a pair for every qubit, in their order, and without payloads that no
type selects, in all of its boxes too. -/
def Document.normal : Document → Document
  | ⟨bits, commands, permutation, name, phase, qubits⟩ =>
    ⟨bits, Document.normalAll commands, qubits.map fun q => (q, (permutation.lookup q).getD q),
      name, phase, qubits⟩

def Document.normalAll : List Document.Command → List Document.Command
  | [] => []
  | c :: cs => c.normal :: Document.normalAll cs

def Document.Command.normal : Document.Command → Document.Command
  | ⟨args, op, opgroup⟩ => ⟨args, op.normal, opgroup⟩

/-- A box stays beside the type of boxes, a condition beside the type of guarded operations. -/
def Document.Op.normal : Document.Op → Document.Op
  | ⟨some box, _, .circBox⟩ => ⟨some box.normal, none, .circBox⟩
  | ⟨_, some conditional, .conditional⟩ => ⟨none, some conditional.normal, .conditional⟩
  | ⟨_, _, type⟩ => .plain type

def Document.Box.normal : Document.Box → Document.Box
  | ⟨circuit, id, type⟩ => ⟨circuit.normal, id, type⟩

def Document.Conditional.normal : Document.Conditional → Document.Conditional
  | ⟨op, value, width⟩ => ⟨op.normal, value, width⟩

end

/-! ### Permutations -/

/-- The pairs that are kept send a qubit where the listed ones do. -/
theorem getD_lookup_movedPairs {qubits : List Qubit} {pairs : List (Qubit × Qubit)}
    (hs : (pairs.map Prod.fst).Nodup) (hq : qubits.Nodup) {q : Qubit} (hm : q ∈ qubits) :
    ((movedPairs qubits pairs).lookup q).getD q = (pairs.lookup q).getD q := by
  have hkept := lookup_eq_some_iff_mem (hq.sublist (movedPairs_sources qubits pairs)) q
  have hlisted := lookup_eq_some_iff_mem hs q
  simp only [mem_movedPairs hs, hm, true_and, ← hlisted] at hkept
  -- a pair that does not move its qubit is not kept, and leaves it where it is anyway
  have hnone (hfixed : ∀ r, pairs.lookup q = some r → q = r) :
      (movedPairs qubits pairs).lookup q = none := by
    rw [Option.eq_none_iff_forall_ne_some]
    intro r hr
    obtain ⟨hlookup, hmoved⟩ := (hkept r).1 hr
    exact hmoved (hfixed r hlookup)
  cases hl : pairs.lookup q with
  | none => rw [hnone (by simp [hl])]
  | some r =>
    by_cases hr : q = r
    · have hfixed : ∀ s, pairs.lookup q = some s → q = s := by
        intro s hs
        rw [hl] at hs
        cases hs
        exact hr
      rw [hnone hfixed, Option.getD_none, Option.getD_some, hr]
    · rw [(hkept r).2 ⟨hl, hr⟩]

theorem lookup_qubits (permutation : List (UnitId × UnitId)) (u : UnitId) :
    (permutation.map fun (u, v) => (Qubit.mk u, Qubit.mk v)).lookup ⟨u⟩ =
      (permutation.lookup u).map Qubit.mk := by
  induction permutation with
  | nil => rfl
  | cons p permutation ih =>
    obtain ⟨a, b⟩ := p
    have hbeq : (Qubit.mk u == Qubit.mk a) = (u == a) := by
      rw [Bool.eq_iff_iff, beq_iff_eq, beq_iff_eq, Qubit.mk.injEq]
    rw [List.map_cons, List.lookup_cons, List.lookup_cons, hbeq]
    cases u == a with
    | true => rfl
    | false => exact ih

/-! ### Commands -/

theorem Condition.make_eq_ok {bits : List Bit} {value : UInt64} {condition : Condition}
    (h : Condition.make bits value = .ok condition) :
    condition.bits = bits ∧ condition.value = value := by
  unfold make at h
  split_ifs at h
  cases h
  exact ⟨rfl, rfl⟩

/-- Qubits and bits that were split from a list of arguments make up that list. -/
theorem ids_split (args : List UnitId) (n : Nat) :
    ((args.take n).map Qubit.mk).map Qubit.id ++ ((args.drop n).map Bit.mk).map Bit.id = args := by
  simp [Function.comp_def]

theorem Command.document_of_ofArgs_none {args : List UnitId} {op : Operation}
    {opgroup : Option String} {command : Command}
    (h : Command.ofArgs args none op opgroup = .ok command) :
    command.document = ⟨args, op.document, opgroup⟩ := by
  rw [ofArgs_none] at h
  split_ifs at h
  cases h
  rw [Command.document_unguarded, ids_split]

theorem Command.document_of_ofArgs_some {args : List UnitId} {width : UInt32} {value : UInt64}
    {op : Operation} {opgroup : Option String} {command : Command}
    (h : Command.ofArgs args (some (width.toNat, value)) op opgroup = .ok command) :
    command.document =
      ⟨args, ⟨none, some ⟨op.document, value, width⟩, .conditional⟩, opgroup⟩ := by
  rw [ofArgs_some] at h
  split_ifs at h with hlength
  cases hmake : Condition.make ((args.take width.toNat).map Bit.mk) value with
  | error e => rw [hmake] at h; cases h
  | ok condition =>
    rw [hmake] at h
    cases h
    obtain ⟨hbits, hvalue⟩ := Condition.make_eq_ok hmake
    have hwidth : condition.width = width.toNat := by
      rw [Condition.width, hbits, List.length_map, List.length_take]
      omega
    have hargs : condition.bits.map Bit.id ++ (((args.drop width.toNat).take
        op.qubitCount).map Qubit.mk).map Qubit.id ++
        ((args.drop (width.toNat + op.qubitCount)).map Bit.mk).map Bit.id = args := by
      rw [List.append_assoc, ← List.drop_drop, ids_split, hbits]
      simp [Function.comp_def]
    rw [Command.document_guarded, hargs, hvalue, hwidth, UInt32.ofNat_toNat]

theorem Operation.document_ofType (type : OpType) :
    (Operation.ofType type).document = .plain type := by
  cases type <;> rfl

/-! ### Documents -/

/-- The images that a circuit writes down, where it was read with these pairs. -/
theorem Document.images_of_pairs {d : Document} {c : Circuit} (h : d.load = .ok c) :
    c.implicitPermutation.map (fun p => (p.1.id, p.2.id)) =
      d.qubits.map fun q => (q, (d.permutation.lookup q).getD q) := by
  obtain ⟨hq, -, hpairs, loaded, -, -, rfl⟩ := Document.load_eq_ok_iff.1 h
  rw [Circuit.implicitPermutation, List.map_map, Circuit.ofUnits, List.map_map]
  apply List.map_congr_left
  intro u hu
  have himage := getD_lookup_movedPairs hpairs.sources_nodup hq (List.mem_map_of_mem hu)
  rw [Document.pairs, lookup_qubits] at himage
  simp only [Function.comp_apply, Circuit.image, Document.pairs, himage]
  cases d.permutation.lookup u <;> rfl

/-- An unguarded command is written as it was read, if its operation is. -/
theorem Document.Command.document_of_unguarded {op : Document.Op} (ht : op.type ≠ .conditional)
    (hop : ∀ {op' : Operation}, op.load = .ok op' → op'.document = op.normal)
    {args : List UnitId} {opgroup : Option String} {c : QuantumCircuit.Command}
    (h : Document.Command.load ⟨args, op, opgroup⟩ = .ok c) :
    c.document = Document.Command.normal ⟨args, op, opgroup⟩ := by
  rw [Document.Command.load_of_type_ne ht] at h
  obtain ⟨op', hload, h⟩ := bind_eq_ok_iff.1 h
  rw [Command.document_of_ofArgs_none h, hop hload, Document.Command.normal]

/-- Of an operation that is neither a box nor guarded only the type counts. -/
theorem Document.Op.document_of_plain {box : Option Document.Box}
    {conditional : Option Document.Conditional} {type : OpType} (h₁ : type ≠ .circBox)
    (h₂ : type ≠ .conditional) {op : Operation}
    (h : Document.Op.load ⟨box, conditional, type⟩ = .ok op) :
    op.document = Document.Op.normal ⟨box, conditional, type⟩ := by
  rw [Document.Op.load_plain h₁ h₂] at h
  cases h
  rw [Operation.document_ofType, Document.Op.normal]
  · rintro box conditional ⟨_, _, rfl⟩
    exact h₁ rfl
  · rintro box conditional ⟨_, _, rfl⟩
    exact h₂ rfl

mutual

/-- A circuit that was read is written as the normal form of what was read. -/
theorem Document.document_of_load : (d : Document) → {c : Circuit} → d.load = .ok c →
    c.document = d.normal
  | ⟨bits, commands, permutation, name, phase, qubits⟩, c, h => by
    have himages := Document.images_of_pairs h
    obtain ⟨-, -, -, loaded, hloads, -, rfl⟩ := Document.load_eq_ok_iff.1 h
    have hcommands := Document.documents_of_loads commands hloads
    rw [Circuit.document_eq, Document.normal, ← hcommands, himages]
    simp [Circuit.ofUnits, Function.comp_def]

theorem Document.documents_of_loads : (ds : List Document.Command) →
    {cs : List QuantumCircuit.Command} → List.Forall₂ (fun d c => d.load = .ok c) ds cs →
      cs.map Command.document = Document.normalAll ds
  | [], cs, h => by
    cases h
    rfl
  | d :: ds, cs, h => by
    obtain ⟨c, cs, hd, hds, rfl⟩ := List.forall₂_cons_left_iff.1 h
    rw [List.map_cons, Document.normalAll, Document.Command.document_of_load d hd,
      Document.documents_of_loads ds hds]

theorem Document.Command.document_of_load : (d : Document.Command) →
    {c : QuantumCircuit.Command} → d.load = .ok c → c.document = d.normal
  | ⟨args, ⟨box, none, type⟩, opgroup⟩, c, h => by
    by_cases ht : type = .conditional
    · subst ht
      rw [Document.Command.load] at h
      cases h
    · exact Document.Command.document_of_unguarded ht
        (Document.Op.document_of_load ⟨box, none, type⟩) h
  | ⟨args, ⟨box, some ⟨inner, value, width⟩, type⟩, opgroup⟩, c, h => by
    by_cases ht : type = .conditional
    · subst ht
      rw [Document.Command.load] at h
      obtain ⟨op, hop, h⟩ := bind_eq_ok_iff.1 h
      rw [Command.document_of_ofArgs_some h, Document.Op.document_of_load inner hop,
        Document.Command.normal, Document.Op.normal, Document.Conditional.normal]
    · exact Document.Command.document_of_unguarded ht
        (Document.Op.document_of_load ⟨box, some ⟨inner, value, width⟩, type⟩) h

theorem Document.Op.document_of_load : (op : Document.Op) → {op' : Operation} →
    op.load = .ok op' → op'.document = op.normal
  | ⟨none, conditional, type⟩, op', h => by
    cases type with
    | circBox => rw [Document.Op.load] at h; cases h
    | conditional => rw [Document.Op.load] at h; cases h
    | _ => exact Document.Op.document_of_plain (by simp) (by simp) h
  | ⟨some ⟨circuit, id, boxType⟩, conditional, type⟩, op', h => by
    cases type with
    | circBox =>
      rw [Document.Op.load] at h
      split_ifs at h with hbox
      obtain ⟨body, hbody, h⟩ := bind_eq_ok_iff.1 h
      cases h
      rw [Operation.document, Document.document_of_load circuit hbody, Document.Op.normal,
        Document.Box.normal, hbox]
    | conditional => rw [Document.Op.load] at h; cases h
    | _ => exact Document.Op.document_of_plain (by simp) (by simp) h

end

/-- Writing what was read gives the normal form of the document, which describes the same
circuit. -/
theorem Document.document_eq_normal {d : Document} {c : Circuit} (h : d.load = .ok c) :
    c.document = d.normal ∧ d.normal.load = .ok c := by
  have hnormal := Document.document_of_load d h
  refine ⟨hnormal, ?_⟩
  rw [← hnormal]
  exact (Document.load_valid d h).load_document

/-- A flip of one qubit, written with the pairs given. -/
def Document.flip (permutation : List (UnitId × UnitId)) : Document :=
  ⟨[], [⟨[⟨"q", [0]⟩], .plain .x, none⟩], permutation, none, "0.0", [⟨"q", [0]⟩]⟩

/-- A gate that may carry a box, and a guarded box; the pairs are those given. -/
def Document.guardedBox (permutation body : List (UnitId × UnitId))
    (stray : Option Document.Box) : Document :=
  ⟨[⟨"c", [0]⟩],
    [⟨[⟨"q", [0]⟩], ⟨stray, none, .h⟩, none⟩,
      ⟨[⟨"c", [0]⟩, ⟨"q", [1]⟩],
        ⟨none, some ⟨⟨some ⟨.flip body, ⟨7⟩, .circBox⟩, none, .circBox⟩, 1, 1⟩, .conditional⟩,
        some "g"⟩],
    permutation, none, "0.5", [⟨"q", [0]⟩, ⟨"q", [1]⟩, ⟨"q", [2]⟩]⟩

/-- An exchange is listed last first and without the qubit that stays, the box lists nothing,
and the gate carries a box of its own. -/
theorem Document.document_eq_normal_guardedBox :
    ∃ c, (Document.guardedBox
        [(⟨"q", [2]⟩, ⟨"q", [1]⟩), (⟨"q", [1]⟩, ⟨"q", [2]⟩)] []
        (some ⟨.flip [], ⟨7⟩, .x⟩)).load = .ok c ∧
      c.document = Document.guardedBox
        [(⟨"q", [0]⟩, ⟨"q", [0]⟩), (⟨"q", [1]⟩, ⟨"q", [2]⟩), (⟨"q", [2]⟩, ⟨"q", [1]⟩)]
        [(⟨"q", [0]⟩, ⟨"q", [0]⟩)] none := by
  obtain ⟨c, hc⟩ := exists_of_isOk (x := (Document.guardedBox
    [(⟨"q", [2]⟩, ⟨"q", [1]⟩), (⟨"q", [1]⟩, ⟨"q", [2]⟩)] [] (some ⟨.flip [], ⟨7⟩, .x⟩)).load)
    (by decide +kernel)
  exact ⟨c, hc, (Document.document_eq_normal hc).1⟩

end QuantumCircuit
