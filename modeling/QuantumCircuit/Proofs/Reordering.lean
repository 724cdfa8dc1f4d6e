import Mathlib.Logic.Equiv.Basic
import QuantumCircuit.Proofs.Chains

/-! Two neighbouring commands without a common wire change places. No chain runs from the first
to the second, so the chains of the new circuit are those of the old one under other numbers,
and so are the levels, the layers and the depth, which are determined by chains. It does not
matter that every later command finds its dependencies under other numbers, nor which of them
are kept. -/

namespace QuantumCircuit

/-! ### Exchanges by position -/

section Exchanges

variable {α : Type}

/-- The members at positions `i` and `i + 1` change places. -/
def exchangeAt : Nat → List α → List α
  | 0, a :: b :: rest => b :: a :: rest
  | i + 1, a :: rest => a :: exchangeAt i rest
  | _, as => as

theorem length_exchangeAt (i : Nat) (as : List α) : (exchangeAt i as).length = as.length := by
  fun_induction exchangeAt i as <;> simp_all

theorem exchangeAt_exchangeAt (i : Nat) (as : List α) : exchangeAt i (exchangeAt i as) = as := by
  fun_induction exchangeAt i as <;> simp_all [exchangeAt]

theorem exchangeAt_append (before : List α) (a b : α) (after : List α) :
    exchangeAt before.length (before ++ a :: b :: after) = before ++ b :: a :: after := by
  induction before with
  | nil => rfl
  | cons x before ih => simp [exchangeAt, ih]

theorem getElem?_exchangeAt {i : Nat} {as : List α} (h : i + 1 < as.length) (j : Nat) :
    (exchangeAt i as)[j]? = as[Equiv.swap i (i + 1) j]? := by
  fun_induction exchangeAt i as generalizing j with
  | case1 a b rest =>
    match j with
    | 0 => rfl
    | 1 => rfl
    | j + 2 => rw [Equiv.swap_apply_of_ne_of_ne (by omega) (by omega)]; rfl
  | case2 i a rest ih =>
    cases j with
    | zero => rw [Equiv.swap_apply_of_ne_of_ne (by omega) (by omega)]; rfl
    | succ j =>
      have hswap : Equiv.swap (i + 1) (i + 1 + 1) (j + 1) = Equiv.swap i (i + 1) j + 1 :=
        Nat.succ_injective.swap_apply i (i + 1) j
      rw [hswap, List.getElem?_cons_succ, List.getElem?_cons_succ]
      exact ih (by simpa using h) j
  | case3 i as h0 hsucc =>
    match i, as with
    | 0, a :: b :: rest => exact absurd rfl (h0 a b rest rfl)
    | i + 1, a :: rest => exact absurd rfl (hsucc i a rest rfl)

/-- An exchange of neighbours keeps the order of all others. -/
theorem swap_lt_swap {i a b : Nat} (hab : a < b) (h : ¬ (a = i ∧ b = i + 1)) :
    Equiv.swap i (i + 1) a < Equiv.swap i (i + 1) b := by
  simp only [Equiv.swap_apply_def]
  split_ifs <;> omega

theorem swap_lt_iff {i n : Nat} (h : i + 1 < n) (a : Nat) : Equiv.swap i (i + 1) a < n ↔ a < n := by
  rw [Equiv.swap_apply_def]
  split_ifs <;> omega

end Exchanges

/-- Commands without a common wire. -/
def Command.Apart (a b : Command) : Prop := ∀ w ∈ a.wires, w ∉ b.wires

namespace Circuit

variable {c : Circuit} {i : Nat}

theorem independent_iff {j : Nat} {a b : Command} (ha : c.commands[i]? = some a)
    (hb : c.commands[j]? = some b) : c.Independent i j ↔ a.Apart b := by
  simp only [Independent, wiresAt, List.getD_eq_getElem?_getD, List.getElem?_map, ha, hb,
    Option.map_some, Option.getD_some, Command.Apart]

/-- The circuit in which commands `i` and `i + 1` have changed places. -/
def exchanged (c : Circuit) (i : Nat) : Circuit := { c with commands := exchangeAt i c.commands }

theorem length_commands_exchanged (c : Circuit) (i : Nat) :
    (c.exchanged i).commands.length = c.commands.length :=
  length_exchangeAt i c.commands

theorem exchanged_exchanged (c : Circuit) (i : Nat) : (c.exchanged i).exchanged i = c := by
  cases c with
  | mk => simp only [exchanged, exchangeAt_exchangeAt]

theorem wiresAt_exchanged (hi : i + 1 < c.commands.length) (j : Nat) :
    (c.exchanged i).wiresAt j = c.wiresAt (Equiv.swap i (i + 1) j) := by
  simp only [wiresAt, exchanged, List.getD_eq_getElem?_getD, List.getElem?_map,
    getElem?_exchangeAt hi]

theorem Independent.exchanged (h : c.Independent i (i + 1)) (hi : i + 1 < c.commands.length) :
    (c.exchanged i).Independent i (i + 1) := by
  intro w hw hw'
  rw [wiresAt_exchanged hi, Equiv.swap_apply_left] at hw
  rw [wiresAt_exchanged hi, Equiv.swap_apply_right] at hw'
  exact h w hw' hw

/-- A chain does not run from command `i` to command `i + 1`, so its commands stay in order. -/
theorem Chain.exchanged {is : List Nat} (h : c.Chain is) (hi : i + 1 < c.commands.length)
    (hindependent : c.Independent i (i + 1)) :
    (c.exchanged i).Chain (is.map (Equiv.swap i (i + 1))) := by
  constructor
  · intro j hj
    obtain ⟨k, hk, rfl⟩ := List.mem_map.1 hj
    rw [length_commands_exchanged, swap_lt_iff hi]
    exact h.lt_length k hk
  · rw [List.isChain_map]
    refine h.linked.imp fun a b hab => ?_
    obtain ⟨hlt, w, ha, hb⟩ := hab
    refine ⟨swap_lt_swap hlt ?_, w, ?_, ?_⟩
    · rintro ⟨rfl, rfl⟩
      exact hindependent w ha hb
    · rwa [wiresAt_exchanged hi, Equiv.swap_apply_self]
    · rwa [wiresAt_exchanged hi, Equiv.swap_apply_self]

theorem level_le_exchanged (hi : i + 1 < c.commands.length) (h : c.Independent i (i + 1))
    {j : Nat} (hj : j < c.commands.length) :
    c.level j ≤ (c.exchanged i).level (Equiv.swap i (i + 1) j) := by
  obtain ⟨is, hchain, hlast, hlength⟩ := exists_chain hj
  have hbound := (hchain.exchanged hi h).length_le
    (j := Equiv.swap i (i + 1) j) (by rw [List.getLast?_map, hlast, Option.map_some])
  rw [List.length_map, hlength] at hbound
  omega

theorem level_exchanged (hi : i + 1 < c.commands.length) (h : c.Independent i (i + 1))
    {j : Nat} (hj : j < c.commands.length) :
    (c.exchanged i).level (Equiv.swap i (i + 1) j) = c.level j := by
  have hi' : i + 1 < (c.exchanged i).commands.length := by rwa [length_commands_exchanged]
  have hj' : Equiv.swap i (i + 1) j < (c.exchanged i).commands.length := by
    rwa [length_commands_exchanged, swap_lt_iff hi]
  -- a second exchange undoes the first, so the bound holds the other way round too
  have hback := level_le_exchanged hi' (h.exchanged hi) hj'
  rw [exchanged_exchanged, Equiv.swap_apply_self] at hback
  exact Nat.le_antisymm hback (level_le_exchanged hi h hj)

theorem depth_le_exchanged (hi : i + 1 < c.commands.length) (h : c.Independent i (i + 1)) :
    c.depth ≤ (c.exchanged i).depth := by
  obtain ⟨is, hchain, hlength⟩ := c.isGreatest_depth.1
  rw [← hlength, ← List.length_map (Equiv.swap i (i + 1))]
  exact (c.exchanged i).isGreatest_depth.2 ⟨_, hchain.exchanged hi h, rfl⟩

theorem depth_exchanged (hi : i + 1 < c.commands.length) (h : c.Independent i (i + 1)) :
    (c.exchanged i).depth = c.depth := by
  have hi' : i + 1 < (c.exchanged i).commands.length := by rwa [length_commands_exchanged]
  have hback := depth_le_exchanged hi' (h.exchanged hi)
  rw [exchanged_exchanged] at hback
  exact Nat.le_antisymm hback (depth_le_exchanged hi h)

/-- Layer by layer, the commands have the numbers that the exchange gives them. -/
theorem layers_exchanged (hi : i + 1 < c.commands.length) (h : c.Independent i (i + 1)) :
    List.Forall₂ List.Perm (c.exchanged i).layers
      (c.layers.map fun layer => layer.map (Equiv.swap i (i + 1))) := by
  rw [layers_eq, layers_eq, depth_exchanged hi h, length_commands_exchanged, List.map_map,
    List.forall₂_map_left_iff, List.forall₂_map_right_iff, List.forall₂_same]
  intro l _
  have hold : ((List.range c.commands.length).filter fun j => c.level j == l).Nodup :=
    List.nodup_range.filter _
  have hnew : ((List.range c.commands.length).filter
      fun j => (c.exchanged i).level j == l).Nodup := List.nodup_range.filter _
  refine (List.perm_ext_iff_of_nodup hnew (hold.map (Equiv.injective _))).2 fun j => ?_
  simp only [List.mem_map, List.mem_filter, List.mem_range, beq_iff_eq]
  constructor
  · rintro ⟨hj, hlevel⟩
    have hj' : Equiv.swap i (i + 1) j < c.commands.length := (swap_lt_iff hi j).2 hj
    refine ⟨Equiv.swap i (i + 1) j, ⟨hj', ?_⟩, Equiv.swap_apply_self ..⟩
    rw [← level_exchanged hi h hj', Equiv.swap_apply_self, hlevel]
  · rintro ⟨k, ⟨hk, hlevel⟩, rfl⟩
    exact ⟨(swap_lt_iff hi k).2 hk, by rw [level_exchanged hi h hk, hlevel]⟩

theorem depth_of_exchanges (c : Circuit) {commands : List Command}
    (h : Exchanges Command.Apart c.commands commands) :
    Circuit.depth { c with commands := commands } = c.depth := by
  induction h with
  | refl => cases c with | mk => rfl
  | tail _ hstep ih =>
    rw [← ih]
    cases hstep with
    | @swap before a b hapart after =>
      have hexchanged := depth_exchanged (c := { c with commands := before ++ a :: b :: after })
        (i := before.length) (by simp) ((independent_iff (by simp) (by simp)).2 hapart)
      simpa only [exchanged, exchangeAt_append] using hexchanged

/-- Of two neighbouring commands without a common wire it does not matter which comes first: the
depth stays, and the layers are the same but for the numbers of the two. So the depth is that
of every order to which such exchanges lead. -/
theorem exchanged_alike (c : Circuit) :
    (∀ i, i + 1 < c.commands.length → c.Independent i (i + 1) →
      (c.exchanged i).depth = c.depth ∧ List.Forall₂ List.Perm (c.exchanged i).layers
        (c.layers.map fun layer => layer.map (Equiv.swap i (i + 1)))) ∧
    ∀ commands, Exchanges Command.Apart c.commands commands →
      Circuit.depth { c with commands := commands } = c.depth :=
  ⟨fun _ hi h => ⟨depth_exchanged hi h, layers_exchanged hi h⟩,
    fun _ h => c.depth_of_exchanges h⟩

/-- The last flip moves to the front, past the gate and past the other flip. -/
theorem exchanged_alike_staircase :
    staircase.Independent 1 2 ∧
      List.Forall₂ List.Perm (staircase.exchanged 1).layers [[0, 1], [2]] ∧
      ((staircase.exchanged 1).exchanged 0).depth = 2 := by
  have hgate : staircase.Independent 1 2 := by unfold Independent; decide +kernel
  have hflip : staircase.Independent 0 2 := by unfold Independent; decide +kernel
  have hlayers : (staircase.layers.map fun layer => layer.map (Equiv.swap 1 2)) =
      [[0, 1], [2]] := by decide +kernel
  have hdepth : staircase.depth = 2 := by decide +kernel
  have hmoved : Exchanges Command.Apart staircase.commands
      ((staircase.exchanged 1).exchanged 0).commands := by
    obtain ⟨flip, gate, last, hcommands⟩ : ∃ flip gate last, staircase.commands =
      [flip, gate, last] := ⟨_, _, _, rfl⟩
    have hfirst : Exchange Command.Apart [flip, gate, last] [flip, last, gate] :=
      .swap [flip] ((independent_iff (by simp [hcommands]) (by simp [hcommands])).1 hgate) []
    have hsecond : Exchange Command.Apart [flip, last, gate] [last, flip, gate] :=
      .swap [] ((independent_iff (by simp [hcommands]) (by simp [hcommands])).1 hflip) [gate]
    simpa only [exchanged, hcommands, exchangeAt] using .tail (.single hfirst) hsecond
  obtain ⟨hexchanged, horders⟩ := staircase.exchanged_alike
  refine ⟨hgate, ?_, (horders _ hmoved).trans hdepth⟩
  rw [← hlayers]
  exact (hexchanged 1 (by decide +kernel) hgate).2

end Circuit

end QuantumCircuit
