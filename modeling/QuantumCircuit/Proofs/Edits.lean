import QuantumCircuit.Proofs.Inlining

/-! What actions do to a circuit. Either units of one kind are put behind those that are declared,
or a command behind the others, or the permutation is replaced, boxes are inlined, the name or the
phase is set; or the action is refused, and the circuit stays as it is. This is said once for
each action, with the reason for a refusal, and everything else about actions follows from it. -/

namespace QuantumCircuit

/-! ### Edits -/

namespace Kind

variable {α : Type} [Ord α] [Std.TransOrd α]

/-- The units are new and no two of them the same, and they are put behind the declared ones. -/
structure Adds (k : Kind α) (us : List α) (c c' : Circuit) : Prop where
  nodup : us.Nodup
  -- some actions look in the list and some in the set; in a valid circuit the two agree
  new : ∀ u ∈ us, u ∈ k.list c → u ∉ k.set c
  eq_append : c' = k.append c us

/-- One of the units is there already, or the name of their register is used. -/
inductive Clash (k : Kind α) (us : List α) (c : Circuit) : Error → Prop
  | unit {u : α} (hu : u ∈ us) : k.Clash us c (.duplicateUnit (k.id u))
  | register {u : α} (hu : u ∈ k.list c) : k.Clash us c (.duplicateRegister (k.id u).register)

end Kind

/-- The ways to change a circuit. -/
inductive Edit where
  | qubits (new : List Qubit)
  | bits (new : List Bit)
  | command (added : Command)
  | permutation (pairs : List (Qubit × Qubit))
  | inlining
  | name (text : String)
  | phase (text : String)

namespace Edit

/-- The edit is made. -/
def Made : Edit → Circuit → Circuit → Prop
  | .qubits new, c, c' => Kind.qubit.Adds new c c'
  | .bits new, c, c' => Kind.bit.Adds new c c'
  | .command added, c, c' =>
    c.check added = .ok () ∧ c' = { c with commands := c.commands ++ [added] }
  | .permutation pairs, c, c' => checkPermutation c.qubitSet pairs = .ok () ∧
    c' = { c with permutation := movedPairs c.qubits pairs }
  | .inlining, c, c' => ∃ flat, c.inlined = .ok flat ∧ c' = { c with commands := flat }
  | .name text, c, c' => c' = { c with name := some text }
  | .phase text, c, c' => c' = { c with phase := text }

/-- The edit is refused for this reason. -/
def Refused : Edit → Circuit → Error → Prop
  | .qubits new, c, e => Kind.qubit.Clash new c e
  | .bits new, c, e => Kind.bit.Clash new c e
  | .command added, c, e => c.check added = .error e
  | .permutation pairs, c, e => checkPermutation c.qubitSet pairs = .error e
  | .inlining, c, e => c.inlined = .error e
  | .name _, _, _ => False
  | .phase _, _, _ => False

end Edit

/-! ### Actions make edits -/

namespace Build

/-- The circuit that an action leaves behind, refused or not. -/
def leaves {α : Type} (action : Build α) (c : Circuit) : Circuit :=
  match action.run c with
  | .ok _ c => c
  | .error _ c => c

theorem leaves_of_run {α : Type} {action : Build α} {c d : Circuit} {a : α}
    (h : action.run c = .ok a d) : action.leaves c = d := by
  rw [leaves, h]

section Does

variable {α β : Type} {refused : Circuit → Error → Prop} {made : Circuit → Circuit → Prop}
  {action : Build α} {c c' : Circuit} {e : Error} {a : α}

/-- The action is refused for such a reason and changes nothing, or changes the circuit so. -/
def Does (action : Build α) (refused : Circuit → Error → Prop)
    (made : Circuit → Circuit → Prop) : Prop :=
  ∀ c, (∃ e, refused c e ∧ action.run c = .error e c) ∨
    ∃ a c', made c c' ∧ action.run c = .ok a c'

namespace Does

theorem of_error (h : action.Does refused made) (hrun : action.run c = .error e c') :
    c' = c ∧ refused c e := by
  rcases h c with ⟨e', he, hc⟩ | ⟨a, d, -, hc⟩
  · rw [hrun] at hc
    cases hc
    exact ⟨rfl, he⟩
  · rw [hrun] at hc
    cases hc

theorem of_ok (h : action.Does refused made) (hrun : action.run c = .ok a c') : made c c' := by
  rcases h c with ⟨e, -, hc⟩ | ⟨b, d, hd, hc⟩
  · rw [hrun] at hc
    cases hc
  · rw [hrun] at hc
    cases hc
    exact hd

theorem leaves (h : action.Does refused made) (c : Circuit) :
    action.leaves c = c ∨ made c (action.leaves c) := by
  rw [Build.leaves]
  rcases h c with ⟨e, -, hc⟩ | ⟨a, c', hmade, hc⟩
  · rw [hc]
    exact .inl rfl
  · rw [hc]
    exact .inr hmade

/-- Another result makes no difference to the circuit. -/
theorem answer (h : action.Does refused made) (b : β) :
    Does (do let _ ← action; return b) refused made := by
  intro c
  rcases h c with ⟨e, he, hc⟩ | ⟨a, c', hmade, hc⟩
  · exact .inl ⟨e, he, by rw [EStateM.run_bind, hc]⟩
  · exact .inr ⟨b, c', hmade, by rw [EStateM.run_bind, hc]; rfl⟩

end Does

end Does

section Units

variable {α : Type} [Ord α] [Std.TransOrd α] (k : Kind α)

theorem declare_does (u : α) : (declare k u).Does (k.Clash [u]) (k.Adds [u]) := by
  intro c
  rw [declare_run]
  by_cases hu : u ∈ k.set c
  · rw [if_pos hu]
    exact .inl ⟨_, .unit List.mem_cons_self, rfl⟩
  · rw [if_neg hu]
    refine .inr ⟨(), _, ⟨List.nodup_singleton u, ?_, rfl⟩, rfl⟩
    rw [List.forall_mem_singleton]
    exact fun _ => hu

theorem firstRepeat?_mem {seen : Std.ExtTreeSet α} {us : List α} {u : α}
    (h : firstRepeat? seen us = some u) : u ∈ us := by
  induction us generalizing seen with
  | nil => cases h
  | cons v us ih =>
    rw [firstRepeat?] at h
    split_ifs at h
    · cases h
      exact List.mem_cons_self
    · exact List.mem_cons_of_mem v (ih h)

theorem declareAll_does [Std.LawfulEqOrd α] (us : List α) :
    (declareAll k us).Does (k.Clash us) (k.Adds us) := by
  intro c
  rw [declareAll_run]
  cases hr : firstRepeat? (k.set c) us with
  | some u => exact .inl ⟨_, .unit (firstRepeat?_mem hr), rfl⟩
  | none =>
    obtain ⟨hnew, hn⟩ := (firstRepeat?_eq_none_iff _ _).1 hr
    exact .inr ⟨(), _, ⟨hn, fun u hu _ => hnew u hu, rfl⟩, rfl⟩

/-- No unit under an unused name is declared. -/
theorem notMem_of_unused {name : String} {us : List α} (hus : ∀ u ∈ us, (k.id u).register = name)
    {c : Circuit} (hn : ¬ ∃ u ∈ k.list c, (k.id u).register = name) : ∀ u ∈ us, u ∉ k.list c :=
  fun u hu hdeclared => hn ⟨u, hdeclared, hus u hu⟩

theorem declareRegister_does {name : String} {us : List α} (hn : us.Nodup)
    (hus : ∀ u ∈ us, (k.id u).register = name) :
    (declareRegister k name us).Does (k.Clash us) (k.Adds us) := by
  intro c
  rw [declareRegister_run]
  by_cases hname : ∃ u ∈ k.list c, (k.id u).register = name
  · rw [if_pos hname]
    obtain ⟨u, hu, rfl⟩ := hname
    exact .inl ⟨_, .register hu, rfl⟩
  · rw [if_neg hname]
    refine .inr ⟨(), _, ⟨hn, fun u hu hdeclared => ?_, rfl⟩, rfl⟩
    exact absurd hdeclared (notMem_of_unused k hus hname u hu)

end Units

/-- The action makes an edit, or is refused. -/
abbrev Makes {α : Type} (action : Build α) (edit : Edit) : Prop :=
  action.Does edit.Refused edit.Made

theorem declareQubit_makes (q : Qubit) : (declareQubit q).Makes (.qubits [q]) :=
  declare_does .qubit q

theorem declareBit_makes (b : Bit) : (declareBit b).Makes (.bits [b]) := declare_does .bit b

theorem declareQubits_makes (qubits : List Qubit) : (declareQubits qubits).Makes (.qubits qubits) :=
  declareAll_does .qubit qubits

theorem declareBits_makes (bits : List Bit) : (declareBits bits).Makes (.bits bits) :=
  declareAll_does .bit bits

theorem declareQubitRegister_makes (name : String) (size : UInt32) :
    (declareQubitRegister name size).Makes
      (.qubits ((indicesBelow size).map (Qubit.inRegister name))) :=
  (declareRegister_does .qubit (qubits_inRegister_nodup name size)
    fun _ => register_of_mem_inRegister).answer _

theorem declareBitRegister_makes (name : String) (size : UInt32) :
    (declareBitRegister name size).Makes (.bits (Register.mk name size).bits) :=
  (declareRegister_does .bit (Register.bits_nodup ⟨name, size⟩)
    fun _ => Register.register_of_mem_bits).answer _

theorem add_makes (command : Command) : (add command).Makes (.command command) := by
  intro c
  rw [add_run]
  cases hcheck : c.check command with
  | error e => exact .inl ⟨e, hcheck, rfl⟩
  | ok => exact .inr ⟨(), _, ⟨hcheck, rfl⟩, rfl⟩

theorem setPermutation_makes (pairs : List (Qubit × Qubit)) :
    (setPermutation pairs).Makes (.permutation pairs) := by
  intro c
  rw [setPermutation_run]
  cases hcheck : checkPermutation c.qubitSet pairs with
  | error e => exact .inl ⟨e, hcheck, rfl⟩
  | ok => exact .inr ⟨(), _, ⟨hcheck, rfl⟩, rfl⟩

theorem inline_makes : inline.Makes .inlining := by
  intro c
  rw [inline_run]
  cases hflat : c.inlined with
  | error e => exact .inl ⟨e, hflat, rfl⟩
  | ok commands => exact .inr ⟨_, _, ⟨commands, hflat, rfl⟩, rfl⟩

theorem setName_makes (name : String) : (setName name).Makes (.name name) :=
  fun _ => .inr ⟨(), _, rfl, rfl⟩

theorem setPhase_makes (phase : String) : (setPhase phase).Makes (.phase phase) :=
  fun _ => .inr ⟨(), _, rfl, rfl⟩

end Build

/-! ### Edits keep circuits valid -/

theorem Edit.Made.valid {edit : Edit} {c c' : Circuit} (h : edit.Made c c') (hc : c.Valid)
    (hb : ∀ added, edit = .command added → added.op.BodyValid) : c'.Valid := by
  cases edit with
  | qubits new =>
    obtain ⟨hn, hnew, rfl⟩ := h
    exact hc.append_qubits (fun q hq hd => hnew q hq hd ((hc.indexed.mem_qubitSet q).2 hd)) hn
  | bits new =>
    obtain ⟨hn, hnew, rfl⟩ := h
    exact hc.append_bits (fun b hm hd => hnew b hm hd ((hc.indexed.mem_bitSet b).2 hd)) hn
  | command added =>
    obtain ⟨hcheck, rfl⟩ := h
    exact hc.append_command ((hc.indexed.check_eq_ok_iff added).1 hcheck) (hb added rfl)
  | permutation pairs =>
    obtain ⟨hcheck, rfl⟩ := h
    have hpairs := (hc.indexed.checkPermutation_eq_ok_iff pairs).1 hcheck
    exact hc.with_permutation (movedPairs_permutes hc.indexed.qubits_nodup hpairs)
  | inlining =>
    obtain ⟨flat, hflat, rfl⟩ := h
    exact hc.with_inlined hflat
  | name text =>
    cases h
    exact hc.relabel (some text) c.phase
  | phase text =>
    cases h
    exact hc.relabel c.name text

end QuantumCircuit
