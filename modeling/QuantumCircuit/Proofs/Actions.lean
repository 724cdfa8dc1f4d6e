import Mathlib.Data.List.Nodup
import Mathlib.Data.List.Perm.Subperm
import QuantumCircuit.Circuit.Inline
import QuantumCircuit.Circuit.Permutation

/-! What the actions on a circuit do, one equation per action, and what their checks
accept. The checks are stated on the sets in which a circuit looks up its units; that
these agree with the lists is not assumed here. -/

namespace QuantumCircuit

/-- A computation in two steps succeeds when both do. -/
theorem bind_eq_ok_iff {ε α β : Type} {x : Except ε α} {f : α → Except ε β} {b : β} :
    (x >>= f) = .ok b ↔ ∃ a, x = .ok a ∧ f a = .ok b := by
  cases x <;> simp [bind, Except.bind]

theorem map_eq_ok_iff {ε α β : Type} {x : Except ε α} {f : α → β} {b : β} :
    x.map f = .ok b ↔ ∃ a, x = .ok a ∧ f a = b := by
  cases x <;> simp [Except.map]

theorem seq_eq_ok_iff {ε β : Type} {x : Except ε Unit} {f : Unit → Except ε β} {b : β} :
    (x >>= f) = .ok b ↔ x = .ok () ∧ f () = .ok b := by
  cases x <;> simp [bind, Except.bind]

section Sets

variable {α : Type} [Ord α] [Std.TransOrd α] [Std.LawfulEqOrd α]

@[simp] theorem mem_set_insert {s : Std.ExtTreeSet α} {a b : α} :
    b ∈ s.insert a ↔ b = a ∨ b ∈ s := by
  rw [Std.ExtTreeSet.mem_insert, Std.compare_eq_iff_eq, eq_comm]

@[simp] theorem mem_set_ofList {l : List α} {a : α} :
    a ∈ Std.ExtTreeSet.ofList l ↔ a ∈ l := by
  classical
  rw [Std.ExtTreeSet.mem_ofList, List.contains_iff_mem]

@[simp] theorem mem_set_insertMany {s : Std.ExtTreeSet α} {l : List α} {a : α} :
    a ∈ s.insertMany l ↔ a ∈ s ∨ a ∈ l := by
  classical
  rw [Std.ExtTreeSet.mem_insertMany_list, List.contains_iff_mem]

/-! ### Repetitions -/

/-- Units are accepted when all are declared, none has been seen and none comes twice. -/
theorem checkUnits_eq_ok_iff (declared : Std.ExtTreeSet α) (missing repeated : α → Error)
    (seen : Std.ExtTreeSet α) (us : List α) :
    checkUnits declared missing repeated seen us = .ok () ↔
      (∀ u ∈ us, u ∈ declared) ∧ (∀ u ∈ us, u ∉ seen) ∧ us.Nodup := by
  induction us generalizing seen with
  | nil => simp [checkUnits]
  | cons u us ih =>
    simp only [checkUnits, List.forall_mem_cons, List.nodup_cons]
    by_cases hd : u ∈ declared
    · by_cases hs : u ∈ seen
      · simp [hd, hs]
      · rw [if_neg (not_not.2 hd), if_neg hs, ih]
        simp only [mem_set_insert, not_or]
        constructor
        · rintro ⟨h₁, h₂, h₃⟩
          exact ⟨⟨hd, h₁⟩, ⟨hs, fun v hv => (h₂ v hv).2⟩, fun hu => (h₂ u hu).1 rfl, h₃⟩
        · rintro ⟨⟨_, h₁⟩, ⟨_, h₂⟩, hu, h₃⟩
          exact ⟨h₁, fun v hv => ⟨fun e => hu (e ▸ hv), h₂ v hv⟩, h₃⟩
    · simp [hd]

theorem firstRepeat?_eq_none_iff (seen : Std.ExtTreeSet α) (as : List α) :
    firstRepeat? seen as = none ↔ (∀ a ∈ as, a ∉ seen) ∧ as.Nodup := by
  induction as generalizing seen with
  | nil => simp [firstRepeat?]
  | cons a as ih =>
    simp only [firstRepeat?, List.forall_mem_cons, List.nodup_cons]
    split_ifs with hs
    · simp [hs]
    · rw [ih]
      simp only [mem_set_insert, not_or]
      constructor
      · rintro ⟨h₁, h₂⟩
        exact ⟨⟨hs, fun b hb => (h₁ b hb).2⟩, fun ha => (h₁ a ha).1 rfl, h₂⟩
      · rintro ⟨⟨_, h₁⟩, ha, h₂⟩
        exact ⟨fun b hb => ⟨fun e => ha (e ▸ hb), h₁ b hb⟩, h₂⟩

end Sets

/-! ### Commands -/

/-- A gate is of a unitary type; the other operations are what they say. -/
def Operation.Admissible : Operation → Prop
  | .gate type => type.isGate
  | _ => True

theorem Operation.check_eq_ok_iff (op : Operation) : op.check = .ok () ↔ op.Admissible := by
  cases op with
  | gate type => by_cases h : type.isGate <;> simp [check, Admissible, h]
  | measure => simp [check, Admissible]
  | reset => simp [check, Admissible]
  | box id body => simp [check, Admissible]

/-- The checks of a command, all at once. -/
theorem Circuit.check_eq_ok_iff (c : Circuit) (command : Command) :
    c.check command = .ok () ↔
      command.op.Admissible ∧ command.qubits.length = command.op.qubitCount ∧
      command.bits.length = command.op.bitCount ∧
      ((∀ q ∈ command.qubits, q ∈ c.qubitSet) ∧ command.qubits.Nodup) ∧
      (∀ b ∈ command.allBits, b ∈ c.bitSet) ∧ command.allBits.Nodup := by
  rw [← Operation.check_eq_ok_iff]
  by_cases hq : command.qubits.length = command.op.qubitCount
  · by_cases hb : command.bits.length = command.op.bitCount
    · simp [check, hq, hb, seq_eq_ok_iff, checkUnits_eq_ok_iff]
    · simp [check, hq, hb, bind_eq_ok_iff]
  · simp [check, hq, bind_eq_ok_iff]

/-! ### Permutations -/

/-- The pairs are of declared units, no source and no target comes twice, and both sides have
the same members. -/
structure Bijection {α : Type} (declared : List α) (pairs : List (α × α)) : Prop where
  declared : ∀ p ∈ pairs, p.1 ∈ declared ∧ p.2 ∈ declared
  sources_nodup : (pairs.map Prod.fst).Nodup
  targets_nodup : (pairs.map Prod.snd).Nodup
  same_members : ∀ u, u ∈ pairs.map Prod.fst ↔ u ∈ pairs.map Prod.snd

namespace Bijection

variable {α β : Type} {units : List α} {pairs : List (α × α)}

/-- There are as many targets as sources, so if all targets are sources they are the same. -/
theorem of_targets (hd : ∀ p ∈ pairs, p.1 ∈ units ∧ p.2 ∈ units)
    (hs : (pairs.map Prod.fst).Nodup) (ht : (pairs.map Prod.snd).Nodup)
    (hsub : ∀ u ∈ pairs.map Prod.snd, u ∈ pairs.map Prod.fst) : Bijection units pairs where
  declared := hd
  sources_nodup := hs
  targets_nodup := ht
  same_members u :=
    ((List.subperm_of_subset ht hsub).perm_of_length_le (by simp)).mem_iff.symm

theorem targets_perm (h : Bijection units pairs) :
    (pairs.map Prod.snd).Perm (pairs.map Prod.fst) :=
  (List.perm_ext_iff_of_nodup h.targets_nodup h.sources_nodup).2 fun u => (h.same_members u).symm

/-- Other names for the units make no difference, if they are kept apart. -/
theorem map_iff {f : α → β} (hf : Function.Injective f) :
    Bijection (units.map f) (pairs.map (Prod.map f f)) ↔ Bijection units pairs := by
  have hfst : (pairs.map (Prod.map f f)).map Prod.fst = (pairs.map Prod.fst).map f := by simp
  have hsnd : (pairs.map (Prod.map f f)).map Prod.snd = (pairs.map Prod.snd).map f := by simp
  have hdeclared : (∀ p ∈ pairs.map (Prod.map f f), p.1 ∈ units.map f ∧ p.2 ∈ units.map f) ↔
      ∀ p ∈ pairs, p.1 ∈ units ∧ p.2 ∈ units := by
    simp only [List.forall_mem_map, Prod.map_fst, Prod.map_snd, List.mem_map_of_injective hf]
  constructor
  · rintro ⟨hd, hs, ht, hsame⟩
    rw [hfst] at hs hsame
    rw [hsnd] at ht hsame
    refine ⟨hdeclared.1 hd, (List.nodup_map_iff hf).1 hs, (List.nodup_map_iff hf).1 ht, fun u => ?_⟩
    rw [← List.mem_map_of_injective hf, hsame, List.mem_map_of_injective hf]
  · rintro ⟨hd, hs, ht, hsame⟩
    refine .of_targets (hdeclared.2 hd) (hfst ▸ hs.map hf) (hsnd ▸ ht.map hf) ?_
    rw [hfst, hsnd, List.forall_mem_map]
    exact fun u hu => List.mem_map_of_mem ((hsame u).2 hu)

end Bijection

theorem checkPairs_eq_ok_iff (declared sources targets : Std.ExtTreeSet Qubit)
    (pairs : List (Qubit × Qubit)) :
    checkPairs declared sources targets pairs = .ok () ↔
      (∀ p ∈ pairs, p.1 ∈ declared ∧ p.2 ∈ declared) ∧
      (∀ p ∈ pairs, p.1 ∉ sources ∧ p.2 ∉ targets) ∧
      (pairs.map Prod.fst).Nodup ∧ (pairs.map Prod.snd).Nodup := by
  induction pairs generalizing sources targets with
  | nil => simp [checkPairs]
  | cons p pairs ih =>
    obtain ⟨a, b⟩ := p
    by_cases ha : a ∈ declared
    · by_cases hb : b ∈ declared
      · by_cases hs : a ∈ sources
        · simp [checkPairs, ha, hb, hs]
        · by_cases ht : b ∈ targets
          · simp [checkPairs, ha, hb, hs, ht]
          · simp only [checkPairs, ha, hb, hs, ht, not_true_eq_false, if_false, ih,
              mem_set_insert, List.forall_mem_cons, List.map_cons, List.nodup_cons, not_or,
              List.mem_map, not_exists, not_and, not_false_eq_true, true_and]
            constructor
            · rintro ⟨h₁, h₂, h₃, h₄⟩
              exact ⟨h₁, fun p hp => ⟨(h₂ p hp).1.2, (h₂ p hp).2.2⟩,
                ⟨fun p hp => (h₂ p hp).1.1, h₃⟩, fun p hp => (h₂ p hp).2.1, h₄⟩
            · rintro ⟨h₁, h₂, ⟨h₃, h₄⟩, h₅, h₆⟩
              exact ⟨h₁, fun p hp => ⟨⟨h₃ p hp, (h₂ p hp).1⟩, h₅ p hp, (h₂ p hp).2⟩, h₄, h₆⟩
      · simp [checkPairs, ha, hb]
    · simp [checkPairs, ha]

/-- The check accepts the bijections of the declared qubits. That no target is missing among the
sources is checked, and that is enough. -/
theorem checkPermutation_eq_ok_iff {declared : Std.ExtTreeSet Qubit} {qubits : List Qubit}
    (h : ∀ q, q ∈ declared ↔ q ∈ qubits) (pairs : List (Qubit × Qubit)) :
    checkPermutation declared pairs = .ok () ↔ Bijection qubits pairs := by
  have hfind :
      (pairs.map Prod.snd).find? (· ∉ Std.ExtTreeSet.ofList (pairs.map Prod.fst)) = none ↔
        ∀ q ∈ pairs.map Prod.snd, q ∈ pairs.map Prod.fst := by
    simp only [List.find?_eq_none, mem_set_ofList, decide_eq_true_eq, not_not]
  rw [checkPermutation, seq_eq_ok_iff, checkPairs_eq_ok_iff]
  simp only [h]
  constructor
  · rintro ⟨⟨hd, -, hs, ht⟩, hrest⟩
    refine .of_targets hd hs ht (hfind.1 ?_)
    split at hrest
    next => cases hrest
    next hnone => exact hnone
  · rintro ⟨hd, hs, ht, hsame⟩
    refine ⟨⟨hd, by simp, hs, ht⟩, ?_⟩
    rw [hfind.2 fun q hq => (hsame q).2 hq]
    rfl

/-! ### Actions -/

namespace Build

section Units

variable {α : Type} [Ord α] [Std.TransOrd α] (k : Kind α)

theorem declare_run (u : α) (c : Circuit) : (declare k u).run c =
    if u ∈ k.set c then .error (.duplicateUnit (k.id u)) c else .ok () (k.append c [u]) := by
  by_cases h : u ∈ k.set c <;> simp [declare, h]

theorem declareAll_run (us : List α) (c : Circuit) : (declareAll k us).run c =
    match firstRepeat? (k.set c) us with
    | some u => .error (.duplicateUnit (k.id u)) c
    | none => .ok () (k.append c us) := by
  cases h : firstRepeat? (k.set c) us <;> simp [declareAll, h]

theorem declareRegister_run (name : String) (us : List α) (c : Circuit) :
    (declareRegister k name us).run c =
      if ∃ u ∈ k.list c, (k.id u).register = name then .error (.duplicateRegister name) c
      else .ok () (k.append c us) := by
  by_cases h : ∃ u ∈ k.list c, (k.id u).register = name
  · simp [declareRegister, h]
  · simp only [declareRegister, List.any_eq_true, beq_iff_eq, EStateM.run_bind, EStateM.run_get,
      h, if_false]
    rfl

end Units

theorem add_run (command : Command) (c : Circuit) : (add command).run c =
    match c.check command with
    | .ok _ => .ok () { c with commands := c.commands ++ [command] }
    | .error e => .error e c := by
  cases h : c.check command <;> simp [add, ofExcept, h]

theorem setPermutation_run (pairs : List (Qubit × Qubit)) (c : Circuit) :
    (setPermutation pairs).run c =
      match checkPermutation c.qubitSet pairs with
      | .ok _ => .ok () { c with permutation := movedPairs c.qubits pairs }
      | .error e => .error e c := by
  cases h : checkPermutation c.qubitSet pairs <;> simp [setPermutation, ofExcept, h]

theorem inline_run (c : Circuit) : inline.run c =
    match c.inlined with
    | .ok commands =>
      .ok (c.commands.countP fun command => command.op.isBox) { c with commands := commands }
    | .error e => .error e c := by
  cases h : c.inlined <;> simp only [inline, ofExcept, EStateM.run_bind, EStateM.run_get, h] <;> rfl

end Build

end QuantumCircuit
