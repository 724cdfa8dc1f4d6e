import Mathlib.Data.Finset.Card
import Mathlib.Data.Finset.Range
import Mathlib.Data.List.Chain
import Mathlib.Order.Bounds.Basic
import QuantumCircuit.Proofs.Layering

/-! Chains of commands that have to run one after the other, because each shares a wire with
the next. The layer of a command is the number of commands before it in a longest chain that
ends in it, and the depth is the length of a longest chain. Only the last command on each wire
is kept as a dependency, and a chain may skip commands; neither makes a difference, since levels
rise along every chain and one step below each level there is a dependency. So no other way to
assign the commands to steps is better: none needs fewer steps, and none runs a command in an
earlier one. -/

namespace QuantumCircuit

namespace Schedule

theorem foldl_max_mem (ns : List Nat) (m : Nat) : ns.foldl max m = m ∨ ns.foldl max m ∈ ns := by
  induction ns generalizing m with
  | nil => exact .inl rfl
  | cons n ns ih =>
    rw [List.foldl_cons]
    rcases ih (max m n) with h | h
    · rw [h]
      rcases Nat.le_total m n with hmn | hmn
      · rw [Nat.max_eq_right hmn]
        exact .inr List.mem_cons_self
      · exact .inl (Nat.max_eq_left hmn)
    · exact .inr (List.mem_cons_of_mem n h)

end Schedule

namespace Circuit

open Schedule

variable {c : Circuit}

/-! ### Chains -/

/-- Commands `i` and `j` have a wire in common. -/
def Shares (c : Circuit) (i j : Nat) : Prop := ∃ w ∈ c.wiresAt i, w ∈ c.wiresAt j

/-- Numbers of commands, in ascending order, each of which shares a wire with the next. -/
structure Chain (c : Circuit) (is : List Nat) : Prop where
  lt_length : ∀ i ∈ is, i < c.commands.length
  linked : is.IsChain fun i j => i < j ∧ c.Shares i j

/-- The lengths of all chains. -/
def chainLengths (c : Circuit) : Set Nat := {n | ∃ is, c.Chain is ∧ is.length = n}

/-- The lengths of the chains that end in command `j`. -/
def chainLengthsTo (c : Circuit) (j : Nat) : Set Nat :=
  {n | ∃ is, c.Chain is ∧ is.getLast? = some j ∧ is.length = n}

theorem level_lt_of_shares {i j : Nat} (hij : i < j) (h : c.Shares i j) :
    c.level i < c.level j := by
  obtain ⟨w, hi, hj⟩ := h
  exact level_lt_of_shared hij hi hj

theorem chain_concat {is : List Nat} {j : Nat} : c.Chain (is ++ [j]) ↔
    c.Chain is ∧ j < c.commands.length ∧ ∀ i ∈ is.getLast?, i < j ∧ c.Shares i j := by
  constructor
  · rintro ⟨hlt, hlinked⟩
    obtain ⟨his, -, hlast⟩ := List.isChain_append.1 hlinked
    rw [List.forall_mem_append, List.forall_mem_singleton] at hlt
    exact ⟨⟨hlt.1, his⟩, hlt.2, fun i hi => hlast i hi j rfl⟩
  · rintro ⟨⟨hlt, his⟩, hj, hlast⟩
    refine ⟨List.forall_mem_append.2 ⟨hlt, List.forall_mem_singleton.2 hj⟩, ?_⟩
    refine List.isChain_append.2 ⟨his, .singleton j, fun i hi k hk => ?_⟩
    obtain rfl : j = k := by simpa using hk
    exact hlast i hi

theorem Chain.nil (c : Circuit) : c.Chain [] := ⟨by simp, .nil⟩

/-- Levels rise along a chain. -/
theorem Chain.length_le {is : List Nat} (h : c.Chain is) {j : Nat} (hj : is.getLast? = some j) :
    is.length ≤ c.level j + 1 := by
  induction is using List.reverseRecOn generalizing j with
  | nil => simp
  | append_singleton is k ih =>
    obtain rfl : k = j := by simpa using hj
    obtain ⟨his, -, hlast⟩ := chain_concat.1 h
    rw [List.length_append, List.length_singleton]
    cases hi : is.getLast? with
    | none =>
      rw [List.getLast?_eq_none_iff] at hi
      simp [hi]
    | some i =>
      have hlength := ih his hi
      obtain ⟨hik, hshares⟩ := hlast i hi
      have hlevel := level_lt_of_shares hik hshares
      omega

/-- One level below a command there is one that it depends on. -/
theorem exists_shares_of_level {j k : Nat} (h : c.level j = k + 1) :
    ∃ i, i < j ∧ c.Shares i j ∧ c.level i = k := by
  rw [level_eq] at h
  rcases foldl_max_mem ((c.allPredecessors.getD j []).map fun p => c.level p + 1) 0 with h0 | hmem
  · omega
  · obtain ⟨p, hp, hlevel⟩ := List.mem_map.1 hmem
    obtain ⟨w, hw, hlast⟩ := (c.mem_allPredecessors j p).1 hp
    exact ⟨p, hlast.lt, ⟨w, hlast.uses, hw⟩, by omega⟩

/-- A chain through all levels below a command. -/
theorem exists_chain {j : Nat} (hj : j < c.commands.length) :
    ∃ is, c.Chain is ∧ is.getLast? = some j ∧ is.length = c.level j + 1 := by
  generalize hk : c.level j = k
  induction k generalizing j with
  | zero => exact ⟨[j], chain_concat.2 ⟨.nil c, hj, by simp⟩, rfl, rfl⟩
  | succ k ih =>
    obtain ⟨i, hij, hshares, hlevel⟩ := exists_shares_of_level hk
    obtain ⟨is, hchain, hlast, hlength⟩ := ih (by omega) hlevel
    refine ⟨is ++ [j], chain_concat.2 ⟨hchain, hj, fun i' hi' => ?_⟩, List.getLast?_concat, ?_⟩
    · rw [hlast, Option.mem_some_iff] at hi'
      subst hi'
      exact ⟨hij, hshares⟩
    · rw [List.length_append, hlength, List.length_singleton]

theorem isGreatest_level {j : Nat} (hj : j < c.commands.length) :
    IsGreatest (c.chainLengthsTo j) (c.level j + 1) := by
  refine ⟨exists_chain hj, ?_⟩
  rintro n ⟨is, hchain, hlast, rfl⟩
  exact hchain.length_le hlast

/-! ### Layers -/

theorem exists_level_eq_depth (h : 0 < c.depth) :
    ∃ j < c.commands.length, c.level j + 1 = c.depth := by
  rcases foldl_max_mem (c.levels.map (· + 1)) 0 with h0 | hmem
  · rw [depth, h0] at h
    omega
  · obtain ⟨l, hl, hdepth⟩ := List.mem_map.1 hmem
    obtain ⟨j, hj, rfl⟩ := List.getElem_of_mem hl
    refine ⟨j, c.length_levels ▸ hj, ?_⟩
    rw [level, List.getD_eq_getElem _ _ hj]
    exact hdepth

theorem isGreatest_depth (c : Circuit) : IsGreatest c.chainLengths c.depth := by
  constructor
  · rcases Nat.eq_zero_or_pos c.depth with h0 | hpos
    · exact ⟨[], .nil c, by rw [h0, List.length_nil]⟩
    · obtain ⟨j, hj, hlevel⟩ := exists_level_eq_depth hpos
      obtain ⟨is, hchain, -, hlength⟩ := exists_chain hj
      exact ⟨is, hchain, by rw [hlength, hlevel]⟩
  · rintro n ⟨is, hchain, rfl⟩
    cases hlast : is.getLast? with
    | none =>
      rw [List.getLast?_eq_none_iff] at hlast
      simp [hlast]
    | some j =>
      have hlength := hchain.length_le hlast
      have hdepth := level_lt_depth (hchain.lt_length j (List.mem_of_getLast? hlast))
      omega

/-- No level is left out below that of a command. -/
theorem exists_level_eq {j : Nat} (hj : j < c.commands.length) {l : Nat} (hl : l ≤ c.level j) :
    ∃ i < c.commands.length, c.level i = l := by
  generalize hk : c.level j = k at hl
  induction k generalizing j with
  | zero => exact ⟨j, hj, by omega⟩
  | succ k ih =>
    rcases Nat.eq_or_lt_of_le hl with rfl | hl
    · exact ⟨j, hj, hk⟩
    · obtain ⟨i, hij, -, hlevel⟩ := exists_shares_of_level hk
      exact ih (by omega) hlevel (by omega)

theorem mem_layer_iff {j k : Nat} :
    j ∈ c.layers.getD k [] ↔ j < c.commands.length ∧ c.level j = k := by
  rw [layers_eq]
  by_cases hk : k < c.depth
  · simp [List.getD, hk]
  · have hout : ¬ (j < c.commands.length ∧ c.level j = k) := by
      rintro ⟨hj, rfl⟩
      exact hk (level_lt_depth hj)
    simp [List.getD, hk, hout]

theorem layer_ne_nil {layer : List Nat} (h : layer ∈ c.layers) : layer ≠ [] := by
  rw [layers_eq] at h
  obtain ⟨l, hl, rfl⟩ := List.mem_map.1 h
  rw [List.mem_range] at hl
  obtain ⟨j, hj, hdepth⟩ := exists_level_eq_depth (by omega : 0 < c.depth)
  obtain ⟨i, hi, hlevel⟩ := exists_level_eq hj (by omega : l ≤ c.level j)
  exact List.ne_nil_of_mem (List.mem_filter.2 ⟨List.mem_range.2 hi, by simp [hlevel]⟩)

theorem layer_ascending {layer : List Nat} (h : layer ∈ c.layers) : layer.Pairwise (· < ·) := by
  rw [layers_eq] at h
  obtain ⟨l, -, rfl⟩ := List.mem_map.1 h
  exact List.pairwise_lt_range.filter _

theorem layer_independent {layer : List Nat} (h : layer ∈ c.layers) :
    layer.Pairwise c.Independent :=
  (layer_ascending h).imp_of_mem fun hi hj hij =>
    independent_of_mem_layer h hi hj (Nat.ne_of_lt hij)

/-! ### Steps -/

/-- An assignment of the commands to steps in which of two commands that share a wire the first
one has the earlier step. -/
def Respects (c : Circuit) (step : Nat → Nat) : Prop :=
  ∀ i j, i < j → c.Shares i j → step i < step j

/-- The steps in which a command runs. -/
def stepsUsed (c : Circuit) (step : Nat → Nat) : Finset Nat :=
  (Finset.range c.commands.length).image step

theorem respects_level (c : Circuit) : c.Respects c.level :=
  fun _ _ hij hshares => level_lt_of_shares hij hshares

theorem stepsUsed_level (c : Circuit) : c.stepsUsed c.level = Finset.range c.depth := by
  ext l
  simp only [stepsUsed, Finset.mem_image, Finset.mem_range]
  constructor
  · rintro ⟨j, hj, rfl⟩
    exact level_lt_depth hj
  · intro hl
    obtain ⟨j, hj, hdepth⟩ := exists_level_eq_depth (by omega : 0 < c.depth)
    exact exists_level_eq hj (by omega)

theorem Respects.level_le {step : Nat → Nat} (h : c.Respects step) {j : Nat}
    (hj : j < c.commands.length) : c.level j ≤ step j := by
  generalize hk : c.level j = k
  induction k generalizing j with
  | zero => exact Nat.zero_le _
  | succ k ih =>
    obtain ⟨i, hij, hshares, hlevel⟩ := exists_shares_of_level hk
    have hearlier := h i j hij hshares
    have hi := ih (by omega) hlevel
    omega

/-- The commands of a chain have steps of their own. -/
theorem Respects.depth_le {step : Nat → Nat} (h : c.Respects step) :
    c.depth ≤ (c.stepsUsed step).card := by
  obtain ⟨is, hchain, hlength⟩ := c.isGreatest_depth.1
  have hrising : (is.map step).Pairwise (· < ·) := by
    rw [← List.isChain_iff_pairwise, List.isChain_map]
    exact hchain.linked.imp fun i j hij => h i j hij.1 hij.2
  have hnodup : (is.map step).Nodup := hrising.imp Nat.ne_of_lt
  calc c.depth = (is.map step).toFinset.card := by
        rw [List.toFinset_card_of_nodup hnodup, List.length_map, hlength]
    _ ≤ (c.stepsUsed step).card := by
        apply Finset.card_le_card
        intro t ht
        obtain ⟨i, hi, rfl⟩ := List.mem_map.1 (List.mem_toFinset.1 ht)
        exact Finset.mem_image_of_mem step (Finset.mem_range.2 (hchain.lt_length i hi))

/-- The layers are a partition of the commands into ascending lists without common wires. A
command lies in the layer whose number, with one added, is the length of a longest chain that
ends in it, and there are as many layers as a longest chain has commands. So the layers are
steps in which commands on one wire keep their order, and no others of this kind are fewer or
run a command earlier. -/
theorem layers_earliest (c : Circuit) :
    (c.layers.flatten.Perm (List.range c.commands.length) ∧
      ∀ layer ∈ c.layers, layer ≠ [] ∧ layer.Pairwise (· < ·) ∧ layer.Pairwise c.Independent) ∧
    (∀ j k, j ∈ c.layers.getD k [] ↔ IsGreatest (c.chainLengthsTo j) (k + 1)) ∧
    (c.layers.length = c.depth ∧ IsGreatest c.chainLengths c.depth) ∧
    (∃ step, c.Respects step ∧ (∀ k, ∀ j ∈ c.layers.getD k [], step j = k) ∧
      c.stepsUsed step = Finset.range c.depth) ∧
    ∀ step, c.Respects step → c.depth ≤ (c.stepsUsed step).card ∧
      ∀ k, ∀ j ∈ c.layers.getD k [], k ≤ step j := by
  refine ⟨⟨c.exchanges_layers_flatten.perm.symm, fun layer h =>
    ⟨layer_ne_nil h, layer_ascending h, layer_independent h⟩⟩, fun j k => ?_,
    ⟨by simp [layers_eq], c.isGreatest_depth⟩,
    ⟨c.level, c.respects_level, fun k j hj => (mem_layer_iff.1 hj).2, c.stepsUsed_level⟩,
    fun step h => ⟨h.depth_le, fun k j hj => ?_⟩⟩
  · rw [mem_layer_iff]
    constructor
    · rintro ⟨hj, rfl⟩
      exact isGreatest_level hj
    · intro hgreatest
      obtain ⟨is, hchain, hlast, -⟩ := hgreatest.1
      have hj := hchain.lt_length j (List.mem_of_getLast? hlast)
      have hlevel := hgreatest.unique (isGreatest_level hj)
      exact ⟨hj, by omega⟩
  · obtain ⟨hlt, rfl⟩ := mem_layer_iff.1 hj
    exact h.level_le hlt

/-- The gate on two qubits is the end of a chain of two commands. Steps with gaps between them
are allowed; they are no fewer. -/
theorem layers_earliest_staircase :
    staircase.layers = [[0, 2], [1]] ∧ IsGreatest (staircase.chainLengthsTo 1) 2 ∧
      staircase.depth ≤ (staircase.stepsUsed (2 * ·)).card := by
  have hlayers : staircase.layers = [[0, 2], [1]] := by decide +kernel
  obtain ⟨-, hlayer, -, -, hsteps⟩ := staircase.layers_earliest
  have hrespects : staircase.Respects (2 * ·) := fun i j hij _ => by dsimp only; omega
  refine ⟨hlayers, (hlayer 1 1).1 ?_, (hsteps _ hrespects).1⟩
  rw [hlayers]
  decide

end Circuit

end QuantumCircuit
