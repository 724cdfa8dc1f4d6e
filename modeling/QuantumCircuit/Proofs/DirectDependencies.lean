import Mathlib.Data.Finset.Sort
import QuantumCircuit.Proofs.Dependencies
import QuantumCircuit.Proofs.Reachable

/-! The graph of dependencies, built wire by wire. A command takes its wires one after the other:
if another command had the wire last, an arrow comes from there, and from then on the wire is the
new command's. A command that took a wire twice would get an arrow from itself; in a circuit that
can come about none does. So the arrows are the pairs of commands that follow each other on some
wire, one arrow for each such wire, and the direct dependencies of a command are the numbers at
which the arrows into it start, in ascending order and without repetitions. -/

namespace QuantumCircuit

/-! ### Wires of a command -/

/-- The command is applied to the qubit; it writes the bit, or reads it in its condition. -/
def Command.Touches (command : Command) : Wire → Prop
  | .qubit q => q ∈ command.qubits
  | .bit b => b ∈ command.bits ∨ ∃ condition ∈ command.condition, b ∈ condition.bits

theorem Command.mem_wires_iff (command : Command) (w : Wire) :
    w ∈ command.wires ↔ command.Touches w := by
  cases w with
  | qubit q => simp [wires, Touches]
  | bit b =>
    cases hcondition : command.condition <;>
      simp [wires, allBits, conditionBits, Touches, hcondition, or_comm]

/-- A command that fits takes no wire twice. -/
theorem Command.Fits.wires_nodup {command : Command} {qubits : List Qubit} {bits : List Bit}
    (h : command.Fits qubits bits) : command.wires.Nodup := by
  have hq : (command.qubits.map Wire.qubit).Nodup :=
    h.qubits_nodup.map fun q r e => Wire.qubit.inj e
  have hb : (command.allBits.map Wire.bit).Nodup :=
    h.bits_nodup.map fun b d e => Wire.bit.inj e
  refine hq.append hb ?_
  intro w hqubit hbit
  obtain ⟨q, -, rfl⟩ := List.mem_map.1 hqubit
  obtain ⟨b, -, hne⟩ := List.mem_map.1 hbit
  cases hne

namespace Schedule

/-! ### The graph -/

/-- An arrow between two commands, for the wire on which the second follows the first. -/
structure Arrow where
  source : Nat
  target : Nat
  wire : Wire
deriving DecidableEq

/-- The last command so far on each wire, the latest first, and the arrows so far. -/
structure Graph where
  last : List (Wire × Nat)
  arrows : List Arrow

namespace Graph

/-- Command `i` takes a wire from the command that had it last. -/
def take (i : Nat) (g : Graph) (w : Wire) : Graph where
  last := (w, i) :: g.last
  arrows := g.arrows ++ ((g.last.lookup w).map fun p => ⟨p, i, w⟩).toList

/-- A command with its number takes all of its wires. -/
def enter (g : Graph) (command : List Wire × Nat) : Graph := command.1.foldl (take command.2) g

/-- The graph of commands with the given wires. -/
def ofWires (ws : List (List Wire)) : Graph := ws.zipIdx.foldl enter ⟨[], []⟩

/-- The arrows that command `i` adds, if it takes no wire twice. -/
def newArrows (g : Graph) (i : Nat) (wires : List Wire) : List Arrow :=
  wires.filterMap fun w => (g.last.lookup w).map fun p => ⟨p, i, w⟩

theorem lookup_last_enter (g : Graph) (wires : List Wire) (i : Nat) (w : Wire) :
    (g.enter (wires, i)).last.lookup w = if w ∈ wires then some i else g.last.lookup w := by
  unfold enter
  induction wires generalizing g with
  | nil => rfl
  | cons v wires ih =>
    rw [List.foldl_cons, ih, take, List.lookup_cons]
    by_cases hw : w ∈ wires
    · simp [hw]
    · by_cases hv : w = v
      · simp [hv]
      · simp [hw, hv, beq_false_of_ne hv]

/-- No wire is taken from the command itself, so all arrows come from what was there before. -/
theorem arrows_enter (g : Graph) {wires : List Wire} (hn : wires.Nodup) (i : Nat) :
    (g.enter (wires, i)).arrows = g.arrows ++ g.newArrows i wires := by
  unfold enter
  induction wires generalizing g with
  | nil => simp [newArrows]
  | cons v wires ih =>
    rw [List.nodup_cons] at hn
    have hrest : (g.take i v).newArrows i wires = g.newArrows i wires := by
      apply List.filterMap_congr
      intro w hw
      have hne : w ≠ v := fun e => hn.1 (e ▸ hw)
      rw [take, List.lookup_cons, beq_false_of_ne hne]
    rw [List.foldl_cons, ih _ hn.2, hrest, take, List.append_assoc, newArrows, newArrows,
      List.filterMap_cons]
    cases g.last.lookup v <;> rfl

theorem mem_newArrows {g : Graph} {i : Nat} {wires : List Wire} {arrow : Arrow} :
    arrow ∈ g.newArrows i wires ↔ arrow.target = i ∧ arrow.wire ∈ wires ∧
      g.last.lookup arrow.wire = some arrow.source := by
  obtain ⟨p, j, w⟩ := arrow
  simp only [newArrows, List.mem_filterMap, Option.map_eq_some_iff, Arrow.mk.injEq]
  constructor
  · rintro ⟨w, hw, p, hp, rfl, rfl, rfl⟩
    exact ⟨rfl, hw, hp⟩
  · rintro ⟨rfl, hw, hp⟩
    exact ⟨w, hw, p, hp, rfl, rfl, rfl⟩

/-- Different wires give different arrows. -/
theorem newArrows_nodup (g : Graph) (i : Nat) {wires : List Wire} (hn : wires.Nodup) :
    (g.newArrows i wires).Nodup := by
  refine hn.filterMap fun w v arrow hw hv => ?_
  obtain ⟨p, -, rfl⟩ := Option.map_eq_some_iff.1 hw
  obtain ⟨q, -, he⟩ := Option.map_eq_some_iff.1 hv
  exact (congrArg Arrow.wire he).symm

/-! ### What the graph shows -/

/-- The graph tells the last command on each wire after the commands `done`, and its arrows are
the last uses of a command's wires before it, once each. -/
structure Shows (g : Graph) (done : List (List Wire)) : Prop where
  tracks : Tracks done g.last
  mem_arrows : ∀ arrow, arrow ∈ g.arrows ↔
    Uses done arrow.target arrow.wire ∧ LastUse done arrow.wire arrow.target arrow.source
  nodup : g.arrows.Nodup

theorem shows_nil : Shows ⟨[], []⟩ [] where
  tracks := tracks_nil
  mem_arrows := by simp [Uses]
  nodup := .nil

theorem lt_of_uses {done : List (List Wire)} {i : Nat} {w : Wire} (h : Uses done i w) :
    i < done.length := by
  by_contra hge
  rw [Uses, List.getD_eq_default _ _ (Nat.le_of_not_lt hge)] at h
  cases h

/-- One more command. -/
theorem Shows.enter {g : Graph} {done : List (List Wire)} (h : g.Shows done) {wires : List Wire}
    (hn : wires.Nodup) : (g.enter (wires, done.length)).Shows (done ++ [wires]) where
  tracks := by
    intro w p
    rw [lookup_last_enter, ← lookup_map_append]
    exact h.tracks.step wires w p
  mem_arrows := by
    intro arrow
    have hnew : Uses (done ++ [wires]) done.length arrow.wire ↔ arrow.wire ∈ wires := by
      simp [Uses]
    rw [arrows_enter g hn, List.mem_append, mem_newArrows, h.mem_arrows]
    constructor
    · rintro (⟨huses, hlast⟩ | ⟨htarget, hwire, hlookup⟩)
      · have hlt := lt_of_uses huses
        exact ⟨(uses_append hlt _ _).2 huses, (lastUse_append (Nat.le_of_lt hlt) _ _ _).2 hlast⟩
      · rw [htarget, hnew, lastUse_append (Nat.le_refl _)]
        exact ⟨hwire, (h.tracks _ _).1 hlookup⟩
    · rintro ⟨huses, hlast⟩
      have hlt := lt_of_uses huses
      rw [List.length_append, List.length_singleton] at hlt
      rcases Nat.lt_succ_iff_lt_or_eq.1 hlt with hlt | htarget
      · exact .inl ⟨(uses_append hlt _ _).1 huses,
          (lastUse_append (Nat.le_of_lt hlt) _ _ _).1 hlast⟩
      · rw [htarget] at huses hlast
        rw [lastUse_append (Nat.le_refl _)] at hlast
        exact .inr ⟨htarget, hnew.1 huses, (h.tracks _ _).2 hlast⟩
  nodup := by
    rw [arrows_enter g hn]
    refine h.nodup.append (newArrows_nodup g _ hn) fun arrow hold hnew => ?_
    -- the new command is the target of its own arrows, and of none that was there before
    have hlt := lt_of_uses ((h.mem_arrows arrow).1 hold).1
    rw [(mem_newArrows.1 hnew).1] at hlt
    exact Nat.lt_irrefl _ hlt

/-- All commands, one after the other. -/
theorem ofWires_shows {ws : List (List Wire)} (hn : ∀ wires ∈ ws, wires.Nodup) :
    (ofWires ws).Shows ws := by
  induction ws using List.reverseRecOn with
  | nil => exact shows_nil
  | append_singleton ws wires ih =>
    rw [List.forall_mem_append, List.forall_mem_singleton] at hn
    have hlast : ofWires (ws ++ [wires]) = (ofWires ws).enter (wires, ws.length) := by
      rw [ofWires, List.zipIdx_append, List.foldl_append, Nat.zero_add]
      rfl
    rw [hlast]
    exact (ih hn.1).enter hn.2

/-- The numbers at which the arrows into a command start. -/
def sources (g : Graph) (j : Nat) : List Nat :=
  (g.arrows.filter fun arrow => arrow.target = j).map Arrow.source

theorem mem_sources {g : Graph} {i j : Nat} :
    i ∈ g.sources j ↔ ∃ w, Arrow.mk i j w ∈ g.arrows := by
  simp only [sources, List.mem_map, List.mem_filter, decide_eq_true_eq]
  constructor
  · rintro ⟨⟨p, t, w⟩, ⟨hmem, rfl⟩, rfl⟩
    exact ⟨w, hmem⟩
  · rintro ⟨w, hmem⟩
    exact ⟨⟨i, j, w⟩, ⟨hmem, rfl⟩, rfl⟩

end Graph

/-! ### Ascending dependencies -/

theorem ascending_insertAscending {n : Nat} {ms : List Nat} (h : ms.Pairwise (· < ·)) :
    (insertAscending n ms).Pairwise (· < ·) := by
  fun_induction insertAscending n ms with
  | case1 => exact List.pairwise_singleton _ n
  | case2 m ms hlt =>
    refine List.pairwise_cons.2 ⟨fun k hk => ?_, h⟩
    rcases List.mem_cons.1 hk with rfl | hk
    · exact hlt
    · exact Nat.lt_trans hlt (List.rel_of_pairwise_cons h hk)
  | case3 ms hlt => exact h
  | case4 m ms hlt hne ih =>
    refine List.pairwise_cons.2 ⟨fun k hk => ?_, ih h.of_cons⟩
    rcases mem_insertAscending.1 hk with rfl | hk
    · omega
    · exact List.rel_of_pairwise_cons h hk

theorem ascending_foldr (ns : List Nat) : (ns.foldr insertAscending []).Pairwise (· < ·) := by
  induction ns with
  | nil => exact .nil
  | cons n ns ih => exact ascending_insertAscending ih

theorem ascending_predecessorsFrom (i : Nat) (last : List (Wire × Nat)) (ws : List (List Wire)) :
    ∀ ps ∈ predecessorsFrom i last ws, ps.Pairwise (· < ·) := by
  induction ws generalizing i last with
  | nil => simp [predecessorsFrom]
  | cons wires ws ih =>
    rw [predecessorsFrom, List.forall_mem_cons]
    exact ⟨ascending_foldr _, ih _ _⟩

end Schedule

namespace Circuit

open Schedule

/-! ### Commands of a circuit -/

/-- The graph of the circuit's commands. -/
def graph (c : Circuit) : Graph := .ofWires (c.commands.map Command.wires)

/-- Command `i` touches the wire. -/
def Touches (c : Circuit) (i : Nat) (w : Wire) : Prop :=
  ∃ command ∈ c.commands[i]?, command.Touches w

/-- Command `j` is the next one after command `i` on the wire. -/
structure Follows (c : Circuit) (w : Wire) (i j : Nat) : Prop where
  lt : i < j
  touches_first : c.Touches i w
  touches_second : c.Touches j w
  between : ∀ k, i < k → k < j → ¬ c.Touches k w

variable {c : Circuit}

theorem uses_iff_touches {i : Nat} {w : Wire} :
    Uses (c.commands.map Command.wires) i w ↔ c.Touches i w := by
  rw [Uses, Touches, List.getD_eq_getElem?_getD, List.getElem?_map]
  cases c.commands[i]? with
  | none => simp
  | some command => simp [Command.mem_wires_iff]

theorem follows_iff {w : Wire} {i j : Nat} : c.Follows w i j ↔
    Uses (c.commands.map Command.wires) j w ∧
      LastUse (c.commands.map Command.wires) w j i := by
  constructor
  · rintro ⟨hlt, hi, hj, hbetween⟩
    refine ⟨uses_iff_touches.2 hj, hlt, uses_iff_touches.2 hi, fun k hik hkj => ?_⟩
    rw [uses_iff_touches]
    exact hbetween k hik hkj
  · rintro ⟨hj, hlt, hi, hlatest⟩
    refine ⟨hlt, uses_iff_touches.1 hi, uses_iff_touches.1 hj, fun k hik hkj => ?_⟩
    rw [← uses_iff_touches]
    exact hlatest k hik hkj

theorem mem_allPredecessors_iff {i j : Nat} :
    i ∈ c.allPredecessors.getD j [] ↔ ∃ w, c.Follows w i j := by
  rw [mem_allPredecessors]
  simp only [follows_iff]
  rfl

theorem ascending_allPredecessors (j : Nat) :
    (c.allPredecessors.getD j []).Pairwise (· < ·) := by
  rw [List.getD_eq_getElem?_getD]
  cases hps : c.allPredecessors[j]? with
  | none => exact .nil
  | some ps => exact ascending_predecessorsFrom _ _ _ ps (List.mem_of_getElem? hps)

theorem Valid.graph_shows (h : c.Valid) : c.graph.Shows (c.commands.map Command.wires) := by
  refine Graph.ofWires_shows fun wires hwires => ?_
  obtain ⟨command, hm, rfl⟩ := List.mem_map.1 hwires
  exact (h.fits command hm).wires_nodup

theorem Valid.mem_arrows_iff (h : c.Valid) (arrow : Arrow) :
    arrow ∈ c.graph.arrows ↔ c.Follows arrow.wire arrow.source arrow.target := by
  rw [follows_iff]
  exact h.graph_shows.mem_arrows arrow

/-- Sorting the starts of the arrows into a command gives its direct dependencies. -/
theorem Valid.sort_sources (h : c.Valid) (j : Nat) :
    (c.graph.sources j).toFinset.sort = c.allPredecessors.getD j [] := by
  have hascending := c.ascending_allPredecessors j
  have hsame : (c.graph.sources j).toFinset = (c.allPredecessors.getD j []).toFinset := by
    ext i
    rw [List.mem_toFinset, List.mem_toFinset, mem_allPredecessors_iff, Graph.mem_sources]
    exact exists_congr fun w => h.mem_arrows_iff ⟨i, j, w⟩
  rw [hsame, List.toFinset_sort _ (hascending.imp Nat.ne_of_lt)]
  exact hascending.imp Nat.le_of_lt

/-- Numbers of commands are not cut. -/
theorem predecessors_eq (hn : c.commands.length < 2 ^ 32) {j : Nat} (hj : j < c.commands.length) :
    c.predecessors j = c.allPredecessors.getD j [] := by
  have hsmall : j < UInt32.size := Nat.lt_trans hj hn
  rw [predecessors, Nat.mod_eq_of_lt hsmall]

end Circuit

/-- A command depends directly on the earlier commands that it follows on some wire, with none of
the commands between them on that wire; they are listed in ascending order, so each of them once.
The graph has one arrow for each pair of commands and each wire on which one follows the other,
and its arrows into the command give the same list. -/
theorem Reachable.predecessors_exact {c : Circuit} (h : Reachable c)
    (hn : c.commands.length < 2 ^ 32) {j : Nat} (hj : j < c.commands.length) :
    (c.predecessors j).Pairwise (· < ·) ∧
      (∀ i, i ∈ c.predecessors j ↔ i < j ∧ ∃ w, c.Touches i w ∧ c.Touches j w ∧
        ∀ k, i < k → k < j → ¬ c.Touches k w) ∧
      ((∀ arrow, arrow ∈ c.graph.arrows ↔ c.Follows arrow.wire arrow.source arrow.target) ∧
        c.graph.arrows.Nodup) ∧
      c.predecessors j = (c.graph.sources j).toFinset.sort := by
  have hv := h.valid
  rw [Circuit.predecessors_eq hn hj]
  refine ⟨c.ascending_allPredecessors j, fun i => ?_,
    ⟨hv.mem_arrows_iff, hv.graph_shows.nodup⟩, (hv.sort_sources j).symm⟩
  rw [Circuit.mem_allPredecessors_iff]
  constructor
  · rintro ⟨w, hlt, hi, hj, hbetween⟩
    exact ⟨hlt, w, hi, hj, hbetween⟩
  · rintro ⟨hlt, w, hi, hj, hbetween⟩
    exact ⟨w, hlt, hi, hj, hbetween⟩

/-- A qubit is measured into a bit of the same unit, which guards the second of two gates. -/
def Circuit.feedback : Circuit :=
  (Call.guardedGate .cx [.ofIndex 0, .ofIndex 1] (.ifBit (.inRegister "q" 0))).leaves
    ((Call.gate .cx [.ofIndex 1, .ofIndex 0]).leaves
      ((Call.measure (.ofIndex 0) (.inRegister "q" 0)).leaves
        ((Call.declareBit (.inRegister "q" 0)).leaves (.withQubits 2))))

theorem Reachable.feedback : Reachable .feedback := by
  refine .call _ (.call _ (.call _ (.call _ (.withQubits 2) ?_) ?_) ?_) ?_ <;>
    exact fun body hb => by cases hb

/-- The guarded gate gets two arrows from the gate before it and one from the measurement, whose
bit was not used in between; its qubit was, so for this wire there is none. -/
theorem Reachable.predecessors_exact_feedback :
    Circuit.feedback.predecessors 2 = [0, 1] ∧ Circuit.feedback.graph.sources 2 = [1, 1, 0] ∧
      [0, 1] = [1, 1, 0].toFinset.sort ∧ Circuit.feedback.Follows (.bit (.inRegister "q" 0)) 0 2 ∧
      ¬ Circuit.feedback.Follows (.qubit (.ofIndex 0)) 0 2 := by
  have hcount : Circuit.feedback.commands.length = 3 := rfl
  have hlist : Circuit.feedback.predecessors 2 = [0, 1] := by decide +kernel
  have hsources : Circuit.feedback.graph.sources 2 = [1, 1, 0] := by decide +kernel
  have hbit : (⟨0, 2, .bit (.inRegister "q" 0)⟩ : Schedule.Arrow) ∈
      Circuit.feedback.graph.arrows := by decide +kernel
  have hqubit : (⟨0, 2, .qubit (.ofIndex 0)⟩ : Schedule.Arrow) ∉
      Circuit.feedback.graph.arrows := by decide +kernel
  obtain ⟨-, -, ⟨harrow, -⟩, hsort⟩ := Reachable.feedback.predecessors_exact (j := 2)
    (by rw [hcount]; decide) (by rw [hcount]; decide)
  rw [hlist, hsources] at hsort
  exact ⟨hlist, hsources, hsort, (harrow _).1 hbit, fun h => hqubit ((harrow _).2 h)⟩

end QuantumCircuit
