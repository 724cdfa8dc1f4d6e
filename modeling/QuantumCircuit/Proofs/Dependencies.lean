import Mathlib.Data.List.GetD
import Mathlib.Tactic.SplitIfs
import QuantumCircuit.Schedule

/-! Dependencies among commands, and their layers. Of the commands before it that share a wire
with a command, only the last one on each wire is kept as a direct dependency. This is enough:
between two commands on one wire there is a chain of such dependencies, so the layer of the
later one is greater, however far apart they stand. -/

namespace QuantumCircuit

namespace Schedule

/-- Command `i` uses the wire. -/
def Uses (ws : List (List Wire)) (i : Nat) (w : Wire) : Prop := w ∈ ws.getD i []

/-- Command `p` is the last one before `j` that uses the wire. -/
structure LastUse (ws : List (List Wire)) (w : Wire) (j p : Nat) : Prop where
  lt : p < j
  uses : Uses ws p w
  latest : ∀ k, p < k → k < j → ¬ Uses ws k w

theorem uses_append {done : List (List Wire)} {i : Nat} (h : i < done.length)
    (rest : List (List Wire)) (w : Wire) : Uses (done ++ rest) i w ↔ Uses done i w := by
  rw [Uses, Uses, List.getD_append _ _ _ _ h]

theorem lastUse_append {done : List (List Wire)} {j : Nat} (h : j ≤ done.length)
    (rest : List (List Wire)) (w : Wire) (p : Nat) :
    LastUse (done ++ rest) w j p ↔ LastUse done w j p := by
  constructor
  · rintro ⟨hp, hu, hl⟩
    refine ⟨hp, (uses_append (by omega) rest w).1 hu, fun k hk hkj => ?_⟩
    rw [← uses_append (by omega) rest w]
    exact hl k hk hkj
  · rintro ⟨hp, hu, hl⟩
    refine ⟨hp, (uses_append (by omega) rest w).2 hu, fun k hk hkj => ?_⟩
    rw [uses_append (by omega) rest w]
    exact hl k hk hkj

/-- A wire that was used has a last use, not before any of its uses. -/
theorem exists_lastUse {ws : List (List Wire)} {w : Wire} {i j : Nat} (hij : i < j)
    (hi : Uses ws i w) : ∃ p, LastUse ws w j p ∧ i ≤ p := by
  induction j with
  | zero => omega
  | succ j ih =>
    by_cases hj : Uses ws j w
    · exact ⟨j, ⟨by omega, hj, fun k hk hkj => by omega⟩, by omega⟩
    · have hne : i ≠ j := by
        rintro rfl
        exact hj hi
      obtain ⟨p, ⟨hp, hu, hl⟩, hip⟩ := ih (by omega)
      refine ⟨p, ⟨by omega, hu, fun k hk hkj => ?_⟩, hip⟩
      by_cases hkj' : k = j
      · rw [hkj']
        exact hj
      · exact hl k hk (by omega)

theorem LastUse.unique {ws : List (List Wire)} {w : Wire} {j p q : Nat} (hp : LastUse ws w j p)
    (hq : LastUse ws w j q) : p = q := by
  rcases Nat.lt_trichotomy p q with h | h | h
  · exact absurd hq.uses (hp.latest q h hq.lt)
  · exact h
  · exact absurd hp.uses (hq.latest p h hp.lt)

/-! ### Direct dependencies -/

theorem mem_insertAscending {n m : Nat} {ms : List Nat} :
    n ∈ insertAscending m ms ↔ n = m ∨ n ∈ ms := by
  induction ms with
  | nil => simp [insertAscending]
  | cons k ms ih =>
    rw [insertAscending]
    split_ifs with hlt heq
    · simp
    · subst heq
      simp
    · rw [List.mem_cons, ih, List.mem_cons]
      exact or_left_comm

theorem mem_foldr_insertAscending {n : Nat} {ms : List Nat} :
    n ∈ ms.foldr insertAscending [] ↔ n ∈ ms := by
  induction ms with
  | nil => simp
  | cons m ms ih => rw [List.foldr_cons, mem_insertAscending, ih, List.mem_cons]

theorem lookup_map_append (wires : List Wire) (i : Nat) (last : List (Wire × Nat)) (w : Wire) :
    (wires.map (·, i) ++ last).lookup w = if w ∈ wires then some i else last.lookup w := by
  induction wires with
  | nil => simp
  | cons v wires ih =>
    rw [List.map_cons, List.cons_append, List.lookup_cons, ih]
    by_cases hv : w = v
    · simp [hv]
    · simp [hv, beq_false_of_ne hv]

/-- The last command so far on each wire, after the commands `done`. -/
def Tracks (done : List (List Wire)) (last : List (Wire × Nat)) : Prop :=
  ∀ w p, last.lookup w = some p ↔ LastUse done w done.length p

theorem tracks_nil : Tracks [] [] := by
  intro w p
  simp only [List.lookup_nil, reduceCtorEq, false_iff]
  rintro ⟨hp, -, -⟩
  exact absurd hp (Nat.not_lt_zero p)

/-- One more command is the last one on its wires. -/
theorem Tracks.step {done : List (List Wire)} {last : List (Wire × Nat)} (h : Tracks done last)
    (wires : List Wire) :
    Tracks (done ++ [wires]) (wires.map (·, done.length) ++ last) := by
  intro w p
  rw [lookup_map_append, List.length_append, List.length_singleton]
  have hnew : Uses (done ++ [wires]) done.length w ↔ w ∈ wires := by
    simp [Uses]
  by_cases hw : w ∈ wires
  · -- on its own wires the new command is the last one, whatever was there before
    have hlast : LastUse (done ++ [wires]) w (done.length + 1) done.length :=
      ⟨by omega, hnew.2 hw, fun k hk hkj => by omega⟩
    rw [if_pos hw, Option.some.injEq]
    constructor
    · rintro rfl
      exact hlast
    · exact hlast.unique
  · rw [if_neg hw, h w p, ← lastUse_append (Nat.le_refl _) [wires]]
    constructor
    · rintro ⟨hp, hu, hl⟩
      refine ⟨by omega, hu, fun k hk hkj => ?_⟩
      by_cases hkd : k = done.length
      · rw [hkd, hnew]
        exact hw
      · exact hl k hk (by omega)
    · rintro ⟨hp, hu, hl⟩
      have hpd : p ≠ done.length := by
        rintro rfl
        exact hw (hnew.1 hu)
      exact ⟨by omega, hu, fun k hk hkj => hl k hk (by omega)⟩

/-- The direct dependencies of a command are the last uses of its wires before it. -/
theorem mem_predecessorsFrom {done : List (List Wire)} {last : List (Wire × Nat)}
    (h : Tracks done last) (rest : List (List Wire)) (j p : Nat) :
    p ∈ (predecessorsFrom done.length last rest).getD j [] ↔
      ∃ w, Uses rest j w ∧ LastUse (done ++ rest) w (done.length + j) p := by
  induction rest generalizing done last j with
  | nil => simp [predecessorsFrom, Uses]
  | cons wires rest ih =>
    rw [predecessorsFrom]
    cases j with
    | zero =>
      simp only [List.getD_cons_zero, mem_foldr_insertAscending, List.mem_filterMap, Nat.add_zero,
        Uses, lastUse_append (Nat.le_refl _), h _ p]
    | succ j =>
      have hrest := ih (h.step wires) j
      rw [List.length_append, List.length_singleton, List.append_assoc, List.singleton_append,
        Nat.add_assoc, Nat.add_comm 1 j] at hrest
      rw [List.getD_cons_succ, hrest]
      rfl

theorem length_predecessorsFrom (i : Nat) (last : List (Wire × Nat)) (ws : List (List Wire)) :
    (predecessorsFrom i last ws).length = ws.length := by
  induction ws generalizing i last with
  | nil => rfl
  | cons wires ws ih => rw [predecessorsFrom, List.length_cons, List.length_cons, ih]

/-! ### Layers -/

theorem foldl_max_le_iff {ns : List Nat} {m k : Nat} :
    ns.foldl max m ≤ k ↔ m ≤ k ∧ ∀ n ∈ ns, n ≤ k := by
  induction ns generalizing m with
  | nil => simp
  | cons n ns ih => rw [List.foldl_cons, ih, Nat.max_le, List.forall_mem_cons, and_assoc]

theorem le_foldl_max {ns : List Nat} {n : Nat} (h : n ∈ ns) : n ≤ ns.foldl max 0 :=
  (foldl_max_le_iff.1 (Nat.le_refl _)).2 n h

theorem length_levelsFrom (done : Array Nat) (ps : List (List Nat)) :
    (levelsFrom done ps).length = ps.length := by
  induction ps generalizing done with
  | nil => rfl
  | cons p ps ih => rw [levelsFrom, List.length_cons, List.length_cons, ih]

/-- A command lies one layer after the deepest of its dependencies, if these come before it. -/
theorem getD_levelsFrom (done : Array Nat) (ps : List (List Nat)) (j : Nat)
    (h : ∀ p ∈ ps.getD j [], p < done.size + j) :
    (levelsFrom done ps).getD j 0 = ((ps.getD j []).map fun p =>
      (done.toList ++ levelsFrom done ps).getD p 0 + 1).foldl max 0 := by
  induction ps generalizing done j with
  | nil => simp [levelsFrom]
  | cons predecessors ps ih =>
    rw [levelsFrom]
    cases j with
    | zero =>
      simp only [List.getD_cons_zero, Nat.add_zero] at h ⊢
      congr 1
      apply List.map_congr_left
      intro p hp
      have hsize := h p hp
      rw [List.getD_append _ _ _ _ (by simpa using hsize)]
      simp
    | succ j =>
      rw [List.getD_cons_succ, List.getD_cons_succ, ih]
      · simp
      · intro p hp
        have hlt := h p (by rwa [List.getD_cons_succ])
        rw [Array.size_push]
        omega

end Schedule

namespace Circuit

open Schedule

/-- The wires of command `i`; none if there is no such command. -/
def wiresAt (c : Circuit) (i : Nat) : List Wire := (c.commands.map Command.wires).getD i []

/-- The layer of command `i`. -/
def level (c : Circuit) (i : Nat) : Nat := c.levels.getD i 0

theorem length_levels (c : Circuit) : c.levels.length = c.commands.length := by
  rw [levels, length_levelsFrom, allPredecessors, length_predecessorsFrom, List.length_map]

theorem mem_allPredecessors (c : Circuit) (j p : Nat) :
    p ∈ c.allPredecessors.getD j [] ↔
      ∃ w ∈ c.wiresAt j, LastUse (c.commands.map Command.wires) w j p := by
  have hmem := mem_predecessorsFrom tracks_nil (c.commands.map Command.wires) j p
  rw [List.length_nil, List.nil_append, Nat.zero_add] at hmem
  exact hmem

theorem level_eq (c : Circuit) (j : Nat) :
    c.level j = ((c.allPredecessors.getD j []).map fun p => c.level p + 1).foldl max 0 := by
  refine getD_levelsFrom #[] c.allPredecessors j fun p hp => ?_
  obtain ⟨w, -, hlast⟩ := (c.mem_allPredecessors j p).1 hp
  simpa using hlast.lt

theorem level_lt_of_mem_allPredecessors {c : Circuit} {j p : Nat}
    (h : p ∈ c.allPredecessors.getD j []) : c.level p < c.level j := by
  rw [c.level_eq j]
  exact le_foldl_max (List.mem_map_of_mem h)

/-- Of two commands on one wire the later one lies in a later layer. -/
theorem level_lt_of_shared {c : Circuit} {w : Wire} {i j : Nat} (hij : i < j)
    (hi : w ∈ c.wiresAt i) (hj : w ∈ c.wiresAt j) : c.level i < c.level j := by
  induction j using Nat.strongRecOn with
  | _ j ih =>
    -- the last command on the wire before `j` is `i` itself or another one after `i`
    obtain ⟨p, hlast, hip⟩ := exists_lastUse hij hi
    have hpj := level_lt_of_mem_allPredecessors ((c.mem_allPredecessors j p).2 ⟨w, hj, hlast⟩)
    rcases Nat.eq_or_lt_of_le hip with rfl | hip
    · exact hpj
    · exact Nat.lt_trans (ih p hlast.lt hip hlast.uses) hpj

end Circuit

end QuantumCircuit
