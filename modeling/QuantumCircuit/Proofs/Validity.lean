import Mathlib.Algebra.Group.Nat.Defs
import Mathlib.Data.List.Perm.Basic
import QuantumCircuit.Proofs.Actions

/-! Valid circuits: the units agree with the sets they are looked up in, every command
fits its operation and the units, the permutation is one, and the circuits inside boxes
are valid again, at every depth. Here stands what keeps a circuit valid, part by part;
the actions come later. -/

namespace QuantumCircuit

/-! ### The parts of validity -/

/-- The lists of units have no repetition and the members of the sets. -/
structure Circuit.Indexed (c : Circuit) : Prop where
  qubits_nodup : c.qubits.Nodup
  bits_nodup : c.bits.Nodup
  mem_qubitSet : ∀ q, q ∈ c.qubitSet ↔ q ∈ c.qubits
  mem_bitSet : ∀ b, b ∈ c.bitSet ↔ b ∈ c.bits

/-- The command fits its operation and the units declared around it. -/
structure Command.Fits (command : Command) (qubits : List Qubit) (bits : List Bit) : Prop where
  admissible : command.op.Admissible
  qubit_count : command.qubits.length = command.op.qubitCount
  bit_count : command.bits.length = command.op.bitCount
  qubits_declared : ∀ q ∈ command.qubits, q ∈ qubits
  qubits_nodup : command.qubits.Nodup
  bits_declared : ∀ b ∈ command.allBits, b ∈ bits
  bits_nodup : command.allBits.Nodup
  condition_bounds : ∀ condition ∈ command.condition,
    1 ≤ condition.width ∧ condition.width ≤ 64 ∧ condition.value.toNat < 2 ^ condition.width

/-- The pairs move declared qubits, each listed once and in the order of declaration, and
their targets are their sources in some order. -/
structure Permutes (qubits : List Qubit) (pairs : List (Qubit × Qubit)) : Prop where
  sources : (pairs.map Prod.fst).Sublist qubits
  moved : ∀ p ∈ pairs, p.1 ≠ p.2
  targets : (pairs.map Prod.snd).Perm (pairs.map Prod.fst)

/-- A circuit is valid when its own parts are and the circuits in its boxes are valid. -/
inductive Circuit.Valid : Circuit → Prop where
  | intro {c : Circuit} (indexed : c.Indexed) (permutes : Permutes c.qubits c.permutation)
      (fits : ∀ command ∈ c.commands, command.Fits c.qubits c.bits)
      (bodies : ∀ command ∈ c.commands, ∀ id body, command.op = .box id body → body.Valid) :
      c.Valid

/-- The circuit inside, if the operation is a box, is valid. -/
def Operation.BodyValid (op : Operation) : Prop := ∀ id body, op = .box id body → body.Valid

namespace Circuit.Valid

variable {c : Circuit}

theorem indexed : c.Valid → c.Indexed
  | intro indexed _ _ _ => indexed

theorem permutes : c.Valid → Permutes c.qubits c.permutation
  | intro _ permutes _ _ => permutes

theorem fits : c.Valid → ∀ command ∈ c.commands, command.Fits c.qubits c.bits
  | intro _ _ fits _ => fits

theorem bodies : c.Valid → ∀ command ∈ c.commands, command.op.BodyValid
  | intro _ _ _ bodies => bodies

end Circuit.Valid

/-! ### Commands -/

theorem Condition.bounds (condition : Condition) :
    1 ≤ condition.width ∧ condition.width ≤ 64 ∧
      condition.value.toNat < 2 ^ condition.width :=
  ⟨List.length_pos_of_ne_nil condition.bits_ne_nil, condition.length_le,
    Nat.one_shiftLeft _ ▸ condition.value_lt⟩

namespace Command.Fits

variable {command : Command} {qubits qubits' : List Qubit} {bits bits' : List Bit}

/-- More units do no harm. -/
theorem mono (h : command.Fits qubits bits) (hq : ∀ q ∈ qubits, q ∈ qubits')
    (hb : ∀ b ∈ bits, b ∈ bits') : command.Fits qubits' bits' where
  admissible := h.admissible
  qubit_count := h.qubit_count
  bit_count := h.bit_count
  qubits_declared q hm := hq q (h.qubits_declared q hm)
  qubits_nodup := h.qubits_nodup
  bits_declared b hm := hb b (h.bits_declared b hm)
  bits_nodup := h.bits_nodup
  condition_bounds := h.condition_bounds

theorem written_declared (h : command.Fits qubits bits) : ∀ b ∈ command.bits, b ∈ bits :=
  fun b hm => h.bits_declared b (List.mem_append_right _ hm)

theorem written_nodup (h : command.Fits qubits bits) : command.bits.Nodup :=
  (List.nodup_append.1 h.bits_nodup).2.1

end Command.Fits

/-- The check accepts exactly the commands that fit. -/
theorem Circuit.Indexed.check_eq_ok_iff {c : Circuit} (h : c.Indexed) (command : Command) :
    c.check command = .ok () ↔ command.Fits c.qubits c.bits := by
  rw [Circuit.check_eq_ok_iff]
  simp only [h.mem_qubitSet, h.mem_bitSet]
  constructor
  · rintro ⟨h₁, h₂, h₃, ⟨h₄, h₅⟩, h₆, h₇⟩
    exact ⟨h₁, h₂, h₃, h₄, h₅, h₆, h₇, fun condition _ => condition.bounds⟩
  · rintro ⟨h₁, h₂, h₃, h₄, h₅, h₆, h₇, _⟩
    exact ⟨h₁, h₂, h₃, ⟨h₄, h₅⟩, h₆, h₇⟩

/-! ### Permutations -/

theorem Circuit.Indexed.checkPermutation_eq_ok_iff {c : Circuit} (h : c.Indexed)
    (pairs : List (Qubit × Qubit)) :
    checkPermutation c.qubitSet pairs = .ok () ↔ Bijection c.qubits pairs :=
  QuantumCircuit.checkPermutation_eq_ok_iff h.mem_qubitSet pairs

theorem Permutes.nil (qubits : List Qubit) : Permutes qubits [] where
  sources := List.nil_sublist _
  moved := by simp
  targets := .nil

theorem Permutes.append {qubits : List Qubit} {pairs : List (Qubit × Qubit)}
    (h : Permutes qubits pairs) (more : List Qubit) : Permutes (qubits ++ more) pairs where
  sources := h.sources.trans (List.sublist_append_left _ _)
  moved := h.moved
  targets := h.targets

/-- Where no key comes twice, a lookup finds exactly the pairs that are there. -/
theorem lookup_eq_some_iff_mem {α β : Type} [DecidableEq α] {l : List (α × β)}
    (h : (l.map Prod.fst).Nodup) (a : α) (b : β) : l.lookup a = some b ↔ (a, b) ∈ l := by
  induction l with
  | nil => simp
  | cons p l ih =>
    obtain ⟨x, y⟩ := p
    rw [List.map_cons, List.nodup_cons] at h
    by_cases ha : a = x
    · subst ha
      have hout : (a, b) ∉ l := fun hm => h.1 (List.mem_map.2 ⟨_, hm, rfl⟩)
      simp [hout, eq_comm]
    · have hx : (a == x) = false := by simpa using ha
      rw [List.lookup_cons, hx]
      simpa [ha] using ih h.2

theorem lookup_eq_of_perm {α β : Type} [DecidableEq α] {l l' : List (α × β)} (h : l.Perm l')
    (hn : (l.map Prod.fst).Nodup) (a : α) : l.lookup a = l'.lookup a := by
  have hn' : (l'.map Prod.fst).Nodup := (h.map Prod.fst).nodup_iff.1 hn
  ext b
  rw [lookup_eq_some_iff_mem hn, lookup_eq_some_iff_mem hn', h.mem_iff]

theorem lookup_eq_none_of_notMem {α β : Type} [DecidableEq α] {l : List (α × β)} {a : α}
    (h : a ∉ l.map Prod.fst) : l.lookup a = none := by
  rw [List.lookup_eq_none_iff]
  intro p hp
  have hne : p.1 ≠ a := fun e => h (e ▸ List.mem_map_of_mem hp)
  simpa using hne.symm

theorem movedPairs_sources (qubits : List Qubit) (pairs : List (Qubit × Qubit)) :
    ((movedPairs qubits pairs).map Prod.fst).Sublist qubits := by
  unfold movedPairs
  induction qubits with
  | nil => simp
  | cons q qubits ih =>
    rw [List.filterMap_cons]
    split
    next => exact ih.cons q
    next p hp =>
      obtain ⟨r, _, rfl⟩ := Option.map_eq_some_iff.1 hp
      exact ih.cons_cons q

theorem mem_movedPairs {qubits : List Qubit} {pairs : List (Qubit × Qubit)}
    (h : (pairs.map Prod.fst).Nodup) (p : Qubit × Qubit) :
    p ∈ movedPairs qubits pairs ↔ p.1 ∈ qubits ∧ p ∈ pairs ∧ p.1 ≠ p.2 := by
  obtain ⟨a, b⟩ := p
  have hn := h.sublist ((List.filter_sublist (p := fun p => decide (p.1 ≠ p.2))).map Prod.fst)
  simp only [movedPairs, List.mem_filterMap, Option.map_eq_some_iff, Prod.mk.injEq]
  constructor
  · rintro ⟨q, hq, r, hr, rfl, rfl⟩
    exact ⟨hq, by simpa using (lookup_eq_some_iff_mem hn _ _).1 hr⟩
  · rintro ⟨hq, hm, hne⟩
    exact ⟨a, hq, b, (lookup_eq_some_iff_mem hn _ _).2 (by simpa using ⟨hm, hne⟩), rfl, rfl⟩

/-- In a bijection the pairs that move a qubit have the same members on both sides, too. -/
theorem Bijection.moved_perm {qubits : List Qubit} {pairs : List (Qubit × Qubit)}
    (h : Bijection qubits pairs) : ((pairs.filter fun p => p.1 ≠ p.2).map Prod.snd).Perm
      ((pairs.filter fun p => p.1 ≠ p.2).map Prod.fst) := by
  have hsplit := List.filter_append_perm (fun p : Qubit × Qubit => decide (p.1 ≠ p.2)) pairs
  -- the pairs that move nothing have equal sides and can be cancelled
  have hfixed : (pairs.filter fun p => !decide (p.1 ≠ p.2)).map Prod.snd =
      (pairs.filter fun p => !decide (p.1 ≠ p.2)).map Prod.fst := by
    apply List.map_congr_left
    intro p hp
    simpa [eq_comm] using (List.mem_filter.1 hp).2
  have hboth := ((hsplit.map Prod.snd).trans h.targets_perm).trans (hsplit.map Prod.fst).symm
  rw [List.map_append, List.map_append, hfixed] at hboth
  exact (List.perm_append_right_iff _).1 hboth

/-- What is kept of accepted pairs permutes the qubits. -/
theorem movedPairs_permutes {qubits : List Qubit} {pairs : List (Qubit × Qubit)}
    (hq : qubits.Nodup) (h : Bijection qubits pairs) :
    Permutes qubits (movedPairs qubits pairs) where
  sources := movedPairs_sources qubits pairs
  moved p hp := ((mem_movedPairs h.sources_nodup p).1 hp).2.2
  targets := by
    have hperm : (movedPairs qubits pairs).Perm (pairs.filter fun p => p.1 ≠ p.2) := by
      apply (List.perm_ext_iff_of_nodup _ _).2
      · intro p
        rw [mem_movedPairs h.sources_nodup, List.mem_filter]
        simp only [decide_eq_true_eq]
        exact ⟨fun hp => hp.2, fun hp => ⟨(h.declared p hp.1).1, hp⟩⟩
      · exact List.Nodup.of_map _ (hq.sublist (movedPairs_sources qubits pairs))
      · exact (List.Nodup.of_map _ h.sources_nodup).filter _
    exact ((hperm.map Prod.snd).trans h.moved_perm).trans (hperm.map Prod.fst).symm

/-! ### What keeps a circuit valid -/

/-- Only the units and their sets matter. -/
theorem Circuit.Indexed.congr {c d : Circuit} (h : c.Indexed) (hqubits : d.qubits = c.qubits)
    (hbits : d.bits = c.bits) (hqubitSet : d.qubitSet = c.qubitSet)
    (hbitSet : d.bitSet = c.bitSet) : d.Indexed where
  qubits_nodup := hqubits ▸ h.qubits_nodup
  bits_nodup := hbits ▸ h.bits_nodup
  mem_qubitSet := hqubitSet ▸ hqubits ▸ h.mem_qubitSet
  mem_bitSet := hbitSet ▸ hbits ▸ h.mem_bitSet

theorem indicesBelow_nodup (n : UInt32) : (indicesBelow n).Nodup := by
  apply List.Nodup.map_on _ List.nodup_range
  intro i hi j hj e
  have hn := n.toNat_lt_size
  rw [List.mem_range] at hi hj
  have := congrArg UInt32.toNat e
  rwa [UInt32.toNat_ofNat_of_lt' (by omega), UInt32.toNat_ofNat_of_lt' (by omega)] at this

theorem qubits_inRegister_nodup (name : String) (n : UInt32) :
    ((indicesBelow n).map (Qubit.inRegister name)).Nodup :=
  (indicesBelow_nodup n).map fun i j e => by simpa [Qubit.inRegister] using e

theorem Register.bits_nodup (r : Register) : r.bits.Nodup :=
  (indicesBelow_nodup r.size).map fun i j e => by simpa [bit, Bit.inRegister] using e

theorem register_of_mem_inRegister {name : String} {n : UInt32} {q : Qubit}
    (h : q ∈ (indicesBelow n).map (Qubit.inRegister name)) : q.id.register = name := by
  obtain ⟨i, -, rfl⟩ := List.mem_map.1 h
  rfl

theorem Register.register_of_mem_bits {r : Register} {b : Bit} (h : b ∈ r.bits) :
    b.id.register = r.name := by
  obtain ⟨i, -, rfl⟩ := List.mem_map.1 h
  rfl

namespace Circuit.Valid

variable {c : Circuit}

theorem append_qubits (h : c.Valid) {qubits : List Qubit} (hnew : ∀ q ∈ qubits, q ∉ c.qubits)
    (hn : qubits.Nodup) : (Kind.qubit.append c qubits).Valid := by
  refine .intro ⟨?_, h.indexed.bits_nodup, fun q => ?_, h.indexed.mem_bitSet⟩
    (h.permutes.append qubits) (fun command hc => ?_) h.bodies
  · exact h.indexed.qubits_nodup.append hn fun q hq hq' => hnew q hq' hq
  · simp [Kind.append, Kind.qubit, h.indexed.mem_qubitSet]
  · exact (h.fits command hc).mono (fun q => List.mem_append_left _) fun b => id

theorem append_bits (h : c.Valid) {bits : List Bit} (hnew : ∀ b ∈ bits, b ∉ c.bits)
    (hn : bits.Nodup) : (Kind.bit.append c bits).Valid := by
  refine .intro ⟨h.indexed.qubits_nodup, ?_, h.indexed.mem_qubitSet, fun b => ?_⟩
    h.permutes (fun command hc => ?_) h.bodies
  · exact h.indexed.bits_nodup.append hn fun b hb hb' => hnew b hb' hb
  · simp [Kind.append, Kind.bit, h.indexed.mem_bitSet]
  · exact (h.fits command hc).mono (fun q => id) fun b => List.mem_append_left _

theorem with_commands (h : c.Valid) {commands : List Command}
    (hf : ∀ command ∈ commands, command.Fits c.qubits c.bits)
    (hb : ∀ command ∈ commands, command.op.BodyValid) :
    Valid { c with commands := commands } :=
  .intro (h.indexed.congr rfl rfl rfl rfl) h.permutes hf hb

theorem append_command (h : c.Valid) {command : Command} (hf : command.Fits c.qubits c.bits)
    (hb : command.op.BodyValid) : Valid { c with commands := c.commands ++ [command] } := by
  refine h.with_commands (fun d hd => ?_) fun d hd => ?_
  · rcases List.mem_append.1 hd with hd | hd
    · exact h.fits d hd
    · rwa [List.mem_singleton.1 hd]
  · rcases List.mem_append.1 hd with hd | hd
    · exact h.bodies d hd
    · rwa [List.mem_singleton.1 hd]

theorem with_permutation (h : c.Valid) {pairs : List (Qubit × Qubit)}
    (hp : Permutes c.qubits pairs) : Valid { c with permutation := pairs } :=
  .intro (h.indexed.congr rfl rfl rfl rfl) hp h.fits h.bodies

/-- Name and phase are free. -/
theorem relabel (h : c.Valid) (name : Option String) (phase : String) :
    Valid { c with name := name, phase := phase } :=
  .intro (h.indexed.congr rfl rfl rfl rfl) h.permutes h.fits h.bodies

theorem empty : Circuit.empty.Valid :=
  .intro ⟨.nil, .nil, by simp [Circuit.empty], by simp [Circuit.empty]⟩ (.nil _)
    (by simp [Circuit.empty]) (by simp [Circuit.empty])

theorem withQubits (n : UInt32) : (Circuit.withQubits n).Valid :=
  .intro ⟨qubits_inRegister_nodup "q" n, .nil, by simp [Circuit.withQubits],
    by simp [Circuit.withQubits, Circuit.empty]⟩ (.nil _)
    (by simp [Circuit.withQubits, Circuit.empty]) (by simp [Circuit.withQubits, Circuit.empty])

end Circuit.Valid

end QuantumCircuit
