import QuantumCircuit.Proofs.Flattening
import QuantumCircuit.Proofs.Invariant

/-! What keeps a circuit from being inlined. Two things do: a box, at whatever depth, whose circuit
permutes its qubits, and a leaf that has two conditions or more, its own and those of the boxes
around it. Inlining meets the conditions two at a time and from the inside out. A command that
has been inlined already carries the one condition on its way, so the next one to come is
noticed, however many boxes without a condition lie between; and a box without leaves can have
any. Renaming never fails. -/

namespace QuantumCircuit

/-! ### Failing computations -/

/-- A computation in two steps fails when one of them does. -/
theorem bind_eq_error_iff {ε α β : Type} {x : Except ε α} {f : α → Except ε β} {e : ε} :
    (x >>= f) = .error e ↔ x = .error e ∨ ∃ a, x = .ok a ∧ f a = .error e := by
  cases x <;> simp [bind, Except.bind]

theorem exists_of_mapM_eq_error {ε α β : Type} {f : α → Except ε β} {as : List α} {e : ε}
    (h : as.mapM f = .error e) : ∃ a ∈ as, f a = .error e := by
  induction as with
  | nil => cases h
  | cons a as ih =>
    rw [List.mapM_cons] at h
    obtain ha | ⟨b, -, h⟩ := bind_eq_error_iff.1 h
    · exact ⟨a, List.mem_cons_self, ha⟩
    · obtain h | ⟨bs, -, h⟩ := bind_eq_error_iff.1 h
      · obtain ⟨a', ha', h⟩ := ih h
        exact ⟨a', List.mem_cons_of_mem a ha', h⟩
      · cases h

theorem exists_of_inlineAll_eq_error {commands : List Command} {e : Error}
    (h : inlineAll commands = .error e) : ∃ command ∈ commands, command.inlined = .error e := by
  rw [inlineAll_eq] at h
  obtain h | ⟨parts, -, h⟩ := bind_eq_error_iff.1 h
  · exact exists_of_mapM_eq_error h
  · cases h

/-! ### Boxes -/

/-- Some qubit ends up elsewhere. -/
def Circuit.Permuting (c : Circuit) : Prop := ∃ q ∈ c.qubits, c.image q ≠ q

theorem Circuit.Valid.permuting_iff {c : Circuit} (h : c.Valid) :
    c.Permuting ↔ c.permutation ≠ [] := by
  constructor
  · rintro ⟨q, -, hq⟩ hnil
    simp [image, hnil] at hq
  · intro hne
    obtain ⟨p, hp⟩ := List.exists_mem_of_ne_nil _ hne
    have hsource : p.1 ∈ c.permutation.map Prod.fst := List.mem_map_of_mem hp
    have hmoved := h.permutes.moved _ (h.mem_permutation hsource)
    exact ⟨p.1, h.permutes.sources.subset hsource, hmoved.symm⟩

/-- The circuit has a box with that identifier and with `body` inside, at some depth. -/
def Circuit.HasBox (c : Circuit) (id : Uuid) (body : Circuit) : Prop :=
  ∃ d : Circuit, d.Within c ∧ ∃ command ∈ d.commands, command.op = .box id body

namespace Circuit.HasBox

variable {c d body : Circuit} {id id' : Uuid} {command : Command}

theorem here (hm : command ∈ c.commands) (hop : command.op = .box id body) : c.HasBox id body :=
  ⟨c, .refl c, command, hm, hop⟩

theorem inside (hm : command ∈ c.commands) (hop : command.op = .box id' d)
    (h : d.HasBox id body) : c.HasBox id body := by
  obtain ⟨e, he, hbox⟩ := h
  exact ⟨e, .box hm hop he, hbox⟩

theorem valid (h : c.HasBox id body) (hc : c.Valid) : body.Valid := by
  obtain ⟨d, hd, command, hm, hop⟩ := h
  exact (hd.valid hc).bodies command hm id body hop

end Circuit.HasBox

/-- Why a box is not inlined. -/
theorem Command.inlined_box_eq_error {command : Command} {id : Uuid} {body : Circuit}
    (hop : command.op = .box id body) (hb : Boxed body command.qubits command.bits)
    (hfits : ∀ inner, body.inlined = .ok inner → ∀ d ∈ inner, d.Fits body.qubits body.bits)
    {e : Error} (h : command.inlined = .error e) :
    (body.permutation ≠ [] ∧ e = .unsupportedOp (.permutedBox id)) ∨ body.inlined = .error e ∨
      ∃ inner, body.inlined = .ok inner ∧
        ∃ d ∈ inner, d.Nested command.condition ∧ e = .nestedCondition d.name := by
  rw [inlined_box hop] at h
  split_ifs at h with hp
  · obtain hbody | ⟨inner, hin, h⟩ := bind_eq_error_iff.1 h
    · exact .inr (.inl hbody)
    · obtain ⟨d, hd, h⟩ := exists_of_mapM_eq_error h
      rw [hb.wiring_command _ (hfits inner hin d hd)] at h
      split_ifs at h with hn
      cases h
      exact .inr (.inr ⟨inner, hin, d, hd, hn, rfl⟩)
  · cases h
    exact .inl ⟨fun hnil => hp (by simp [hnil]), rfl⟩

/-- A circuit is inlined only if the circuits in its boxes are, and none of them permutes. -/
theorem Circuit.Valid.inlined_body {c : Circuit} (h : c.Valid) {flat : List Command}
    (hflat : c.inlined = .ok flat) {command : Command} (hm : command ∈ c.commands) {id : Uuid}
    {body : Circuit} (hop : command.op = .box id body) :
    body.permutation = [] ∧ ∃ inner, body.inlined = .ok inner := by
  have hbody := (h.bodies command hm id body hop).inlined_fits
  rw [Circuit.inlined_eq] at hflat
  obtain ⟨parts, hparts, -⟩ := inlineAll_eq_ok_iff.1 hflat
  obtain ⟨part, -, hpart⟩ := exists_of_mem_right hparts.flip hm
  obtain ⟨hp, inner, hin, -⟩ := (Command.inlined_box_eq_ok_iff hop ((h.fits command hm).boxed hop)
    fun inner hin e he => (hbody inner hin e he).1).1 hpart
  exact ⟨hp, inner, hin⟩

theorem Circuit.Within.inlined {c d : Circuit} (h : d.Within c) (hc : c.Valid) :
    ∀ flat, c.inlined = .ok flat → ∃ inner, d.inlined = .ok inner := by
  induction h with
  | refl => exact fun flat hflat => ⟨flat, hflat⟩
  | box hm hop _ ih =>
    intro flat hflat
    obtain ⟨-, inner, hin⟩ := hc.inlined_body hflat hm hop
    exact ih (hc.bodies _ hm _ _ hop) inner hin

theorem Circuit.HasBox.permutation_eq_nil {c body : Circuit} {id : Uuid} (h : c.HasBox id body)
    (hc : c.Valid) {flat : List Command} (hflat : c.inlined = .ok flat) :
    body.permutation = [] := by
  obtain ⟨d, hd, command, hm, hop⟩ := h
  obtain ⟨inner, hin⟩ := hd.inlined hc flat hflat
  exact ((hd.valid hc).inlined_body hin hm hop).1

/-! ### Leaves -/

theorem mem_leafLists {ρ : Renaming} {guards : List Condition} {commands : List Command}
    {leaf : Leaf} :
    leaf ∈ leafLists ρ guards commands ↔
      ∃ command ∈ commands, leaf ∈ command.leafList ρ guards := by
  induction commands with
  | nil => simp [leafLists]
  | cons command commands ih => simp [leafLists, ih]

theorem Leaf.length_guards_of (ρ : Renaming) (guards : List Condition) (command : Command) :
    (Leaf.of ρ guards command).guards.length =
      guards.length + command.condition.toList.length := by
  cases hcondition : command.condition <;> simp [Leaf.of, hcondition]

/-- The error names a box of the circuit that permutes, or the operation of one of the leaves that
has two conditions besides the `n` around the circuit. -/
def Circuit.Obstacle (c : Circuit) (leaves : List Leaf) (n : Nat) (e : Error) : Prop :=
  (∃ id body, c.HasBox id body ∧ body.permutation ≠ [] ∧ e = .unsupportedOp (.permutedBox id)) ∨
    ∃ leaf ∈ leaves, n + 2 ≤ leaf.guards.length ∧ e = .nestedCondition leaf.op.name

/-- One command that is not inlined, given what is in the way inside the box. -/
theorem Command.obstacle {c : Circuit} (hv : c.Valid) {command : Command}
    (hm : command ∈ c.commands) {e : Error} (h : command.inlined = .error e)
    (ih : ∀ id body, command.op = .box id body → body.inlined = .error e →
      ∀ σ gs, body.Obstacle (leafLists σ gs body.commands) gs.length e)
    (ρ : Renaming) (guards : List Condition) :
    c.Obstacle (command.leafList ρ guards) guards.length e := by
  cases hop : command.op with
  | box id body =>
    have hbody := hv.bodies command hm id body hop
    rw [Command.leafList_box hop]
    obtain ⟨hp, rfl⟩ | hin | ⟨inner, hin, d, hd, ⟨hown, hguard⟩, rfl⟩ :=
      Command.inlined_box_eq_error hop ((hv.fits command hm).boxed hop)
        (fun inner hin d hd => (hbody.inlined_fits inner hin d hd).1) h
    · exact .inl ⟨id, body, .here hm hop, hp, rfl⟩
    · obtain ⟨id', d, hbox, hp, rfl⟩ | ⟨leaf, hleaf, hlength, rfl⟩ := ih id body hop hin
        (ρ.comp (.ofBox body command.qubits command.bits))
        (guards ++ (command.condition.map (Condition.renamed ρ.bit)).toList)
      · exact .inl ⟨id', d, hbox.inside hm hop, hp, rfl⟩
      · rw [List.length_append] at hlength
        exact .inr ⟨leaf, hleaf, by omega, rfl⟩
    · -- the inlined command is a leaf under the condition of the box and its own
      obtain ⟨own, hown⟩ := Option.isSome_iff_exists.1 hown
      obtain ⟨guard, hguard⟩ := Option.isSome_iff_exists.1 hguard
      rw [hbody.leafList_inlined inner hin]
      refine .inr ⟨_, List.mem_map_of_mem hd, ?_, rfl⟩
      simp [Leaf.length_guards_of, hown, hguard]
  | _ =>
    rw [Command.inlined_of_not_box (by rw [hop]; rfl)] at h
    cases h

/-- What is in the way of inlining a circuit, inside whatever boxes it stands. -/
theorem Circuit.Valid.obstacle {c : Circuit} (h : c.Valid) : ∀ e, c.inlined = .error e →
    ∀ ρ guards, c.Obstacle (leafLists ρ guards c.commands) guards.length e := by
  induction h with
  | @intro c indexed permutes fits bodies ih =>
    intro e he ρ guards
    have hv : c.Valid := .intro indexed permutes fits bodies
    rw [Circuit.inlined_eq] at he
    obtain ⟨command, hm, hcommand⟩ := exists_of_inlineAll_eq_error he
    refine (Command.obstacle hv hm hcommand (fun id body hop hin => ?_) ρ guards).imp_right ?_
    · exact ih command hm id body hop e hin
    · rintro ⟨leaf, hleaf, h⟩
      exact ⟨leaf, mem_leafLists.2 ⟨command, hm, hleaf⟩, h⟩

/-- An inlined circuit has no leaf with two conditions. -/
theorem Circuit.Valid.length_guards_le {c : Circuit} (h : c.Valid) {flat : List Command}
    (hflat : c.inlined = .ok flat) : ∀ leaf ∈ c.leafList, leaf.guards.length ≤ 1 := by
  intro leaf hleaf
  rw [Circuit.leafList_eq, h.leafList_inlined flat hflat] at hleaf
  obtain ⟨command, -, rfl⟩ := List.mem_map.1 hleaf
  rw [Leaf.length_guards_of]
  cases command.condition <;> simp

/-! ### Inlining -/

/-- A refusal names a box that permutes or the operation of a leaf with two conditions. -/
theorem Circuit.Valid.inline_error {c c' : Circuit} (h : c.Valid) {e : Error}
    (hrun : Build.inline.run c = .error e c') :
    (∃ id body, c.HasBox id body ∧ body.Permuting ∧ e = .unsupportedOp (.permutedBox id)) ∨
      ∃ leaf ∈ c.leafList, 2 ≤ leaf.guards.length ∧ e = .nestedCondition leaf.op.name := by
  rw [Build.inline_run] at hrun
  cases hflat : c.inlined with
  | ok flat => rw [hflat] at hrun; cases hrun
  | error e' =>
    rw [hflat] at hrun
    cases hrun
    obtain ⟨id, body, hbox, hp, he⟩ | ⟨leaf, hleaf, hlength, he⟩ := h.obstacle e hflat .identity []
    · exact .inl ⟨id, body, hbox, (hbox.valid h).permuting_iff.2 hp, he⟩
    · rw [← Circuit.leafList_eq] at hleaf
      exact .inr ⟨leaf, hleaf, by simpa using hlength, he⟩

/-- Inlining is refused when a box at some depth permutes its qubits or a leaf has two conditions,
and only then. The refusal names such a box or the operation of such a leaf. -/
theorem Reachable.inline_refused_iff {c : Circuit} (h : Reachable c) :
    ((∃ e c', Build.inline.run c = .error e c') ↔
      (∃ id body, c.HasBox id body ∧ body.Permuting) ∨
        ∃ leaf ∈ c.leafList, 2 ≤ leaf.guards.length) ∧
    ∀ e c', Build.inline.run c = .error e c' →
      (∃ id body, c.HasBox id body ∧ body.Permuting ∧ e = .unsupportedOp (.permutedBox id)) ∨
        ∃ leaf ∈ c.leafList, 2 ≤ leaf.guards.length ∧ e = .nestedCondition leaf.op.name := by
  refine ⟨⟨?_, fun hobstacle => ?_⟩, fun e c' => h.valid.inline_error⟩
  · rintro ⟨e, c', hrun⟩
    obtain ⟨id, body, hbox, hp, -⟩ | ⟨leaf, hleaf, hlength, -⟩ := h.valid.inline_error hrun
    · exact .inl ⟨id, body, hbox, hp⟩
    · exact .inr ⟨leaf, hleaf, hlength⟩
  · cases hflat : c.inlined with
    | error e => exact ⟨e, c, by rw [Build.inline_run, hflat]⟩
    | ok flat =>
      obtain ⟨id, body, hbox, hp⟩ | ⟨leaf, hleaf, hlength⟩ := hobstacle
      · exact absurd (hbox.permutation_eq_nil h.valid hflat)
          ((hbox.valid h.valid).permuting_iff.1 hp)
      · have := h.valid.length_guards_le hflat leaf hleaf
        omega

/-- A readout under two conditions: its own box has one, and so has the outermost box, with a
box in between that has none. -/
def Circuit.twiceGuarded : Circuit :=
  (Call.add ⟨.box ⟨2⟩ crossedReadout, [.ofIndex 0, .ofIndex 1], [.ofIndex 0, .ofIndex 1],
    some (.ifBit (.ofIndex 2)), none⟩).leaves
    ((Call.declareBitRegister "c" 3).leaves (.withQubits 2))

/-- Two boxes under a condition, one in the other, and no command in the inner one. -/
def Circuit.guardedNothing : Circuit :=
  (Call.add ⟨.box ⟨1⟩
    ((Call.box ⟨0⟩ .empty [] (some (.ifBit (.ofIndex 0)))).leaves
      ((Call.declareBitRegister "c" 1).leaves .empty)),
    [], [.ofIndex 0], some (.ifBit (.ofIndex 1)), none⟩).leaves
    ((Call.declareBitRegister "c" 2).leaves .empty)

theorem Reachable.twiceGuarded : Reachable .twiceGuarded := by
  refine .call _ (.call _ (.withQubits 2) fun body hb => by cases hb) fun body hb => ?_
  cases hb
  exact Reachable.crossedReadout

theorem Reachable.guardedNothing : Reachable .guardedNothing := by
  refine .call _ (.call _ .empty fun body hb => by cases hb) fun body hb => ?_
  cases hb
  refine .call _ (.call _ .empty fun body hb => by cases hb) fun body hb => ?_
  cases hb
  exact .empty

theorem Reachable.inline_refused_iff_twiceGuarded :
    Build.inline.run .twiceGuarded = .error (.nestedCondition "Measure") .twiceGuarded ∧
      (∃ leaf ∈ Circuit.twiceGuarded.leafList,
        2 ≤ leaf.guards.length ∧ leaf.op.name = "Measure") ∧
      Build.inline.run .guardedNothing = .ok 1 (Build.inline.leaves .guardedNothing) ∧
      ¬ ∃ leaf ∈ Circuit.guardedNothing.leafList, 2 ≤ leaf.guards.length := by
  have hrefused :
      Build.inline.run .twiceGuarded = .error (.nestedCondition "Measure") .twiceGuarded := rfl
  have hdone :
      Build.inline.run .guardedNothing = .ok 1 (Build.inline.leaves .guardedNothing) := rfl
  refine ⟨hrefused, ?_, hdone, fun hleaf => ?_⟩
  · obtain ⟨_, _, _, _, he⟩ | ⟨leaf, hleaf, hlength, he⟩ :=
      Reachable.twiceGuarded.inline_refused_iff.2 _ _ hrefused
    · cases he
    · exact ⟨leaf, hleaf, hlength, (Error.nestedCondition.inj he).symm⟩
  · obtain ⟨e, c', hrun⟩ := Reachable.guardedNothing.inline_refused_iff.1.2 (.inr hleaf)
    rw [hdone] at hrun
    cases hrun

end QuantumCircuit
