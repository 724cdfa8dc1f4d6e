import Mathlib.Data.List.Forall2
import Mathlib.Data.List.Perm.Basic
import Mathlib.Logic.Relation
import QuantumCircuit.Proofs.Dependencies
import QuantumCircuit.Proofs.Reachable

/-! Running a circuit layer by layer. The commands in the order of their layers are a
rearrangement of the circuit that only ever exchanges two neighbours without a common wire. So
if commands on different wires commute, it does not matter whether the commands run as they
were added, or layer after layer, with those of one layer in any order. What the commands do is
left open: a state can be anything, and so can be what a command makes of it. -/

namespace QuantumCircuit

/-! ### Exchanges of neighbours -/

section Exchanges

variable {α : Type} {R : α → α → Prop}

/-- Two neighbours in a list change places. -/
inductive Exchange (R : α → α → Prop) : List α → List α → Prop
  | swap (before : List α) {a b : α} (h : R a b) (after : List α) :
    Exchange R (before ++ a :: b :: after) (before ++ b :: a :: after)

/-- One list is made from another by exchanges of neighbours. -/
abbrev Exchanges (R : α → α → Prop) : List α → List α → Prop :=
  Relation.ReflTransGen (Exchange R)

theorem Exchange.perm {xs ys : List α} (h : Exchange R xs ys) : xs.Perm ys := by
  obtain ⟨before, -, after⟩ := h
  exact (List.Perm.swap _ _ after).append_left before

theorem Exchanges.perm {xs ys : List α} (h : Exchanges R xs ys) : xs.Perm ys := by
  induction h with
  | refl => exact .refl xs
  | tail _ hstep ih => exact ih.trans hstep.perm

theorem Exchange.append {xs ys : List α} (h : Exchange R xs ys) (before after : List α) :
    Exchange R (before ++ xs ++ after) (before ++ ys ++ after) := by
  obtain ⟨first, hab, last⟩ := h
  simpa using Exchange.swap (before ++ first) hab (last ++ after)

theorem Exchanges.append {xs ys : List α} (h : Exchanges R xs ys) (before after : List α) :
    Exchanges R (before ++ xs ++ after) (before ++ ys ++ after) :=
  h.lift (before ++ · ++ after) fun _ _ hstep => hstep.append before after

theorem Exchanges.cons {xs ys : List α} (h : Exchanges R xs ys) (x : α) :
    Exchanges R (x :: xs) (x :: ys) := by
  simpa using h.append [x] []

/-- A member moves behind those with which it may change places. -/
theorem exchanges_past {x : α} {xs : List α} (h : ∀ y ∈ xs, R x y) (rest : List α) :
    Exchanges R (x :: (xs ++ rest)) (xs ++ x :: rest) := by
  induction xs with
  | nil => exact .refl
  | cons y xs ih =>
    rw [List.forall_mem_cons] at h
    have hswap : Exchange R (x :: y :: (xs ++ rest)) (y :: x :: (xs ++ rest)) :=
      .swap [] h.1 (xs ++ rest)
    exact .head hswap ((ih h.2).cons y)

/-- The members with a property move to the front, if they may pass those without it. -/
theorem exchanges_filter (p : α → Bool) {xs : List α}
    (h : xs.Pairwise fun a b => p a = false → p b = true → R a b) :
    Exchanges R xs (xs.filter p ++ xs.filter fun x => !p x) := by
  induction xs with
  | nil => exact .refl
  | cons x xs ih =>
    rw [List.pairwise_cons] at h
    have hrest := (ih h.2).cons x
    cases hx : p x with
    | true => simpa [hx] using hrest
    | false =>
      have hpast : ∀ y ∈ xs.filter p, R x y := by
        intro y hy
        obtain ⟨hy, hpy⟩ := List.mem_filter.1 hy
        exact h.1 y hy hx hpy
      simpa [hx] using hrest.trans (exchanges_past hpast _)

/-- The members of the first `d` layers move into the order of their layers, if one of a later
layer may pass one of an earlier layer. -/
theorem exchanges_layers (level : α → Nat) {xs : List α}
    (h : xs.Pairwise fun a b => level b < level a → R a b) (d : Nat) :
    Exchanges R (xs.filter fun x => level x < d)
      ((List.range d).flatMap fun l => xs.filter fun x => level x == l) := by
  induction d with
  | zero => simpa using .refl
  | succ d ih =>
    -- the top layer is moved behind all others, which are then in order by induction
    have hpass : (xs.filter fun x => level x < d + 1).Pairwise fun a b =>
        decide (level a < d) = false → decide (level b < d) = true → R a b := by
      refine (h.filter _).imp fun {a b} hab ha hb => hab ?_
      simp only [decide_eq_false_iff_not, decide_eq_true_eq] at ha hb
      omega
    have hsplit := exchanges_filter _ hpass
    have hlow : (xs.filter fun x => level x < d + 1).filter (fun x => level x < d) =
        xs.filter fun x => level x < d := by
      rw [List.filter_filter]
      apply List.filter_congr
      intro x _
      simp only [Bool.and_eq_left_iff_imp, decide_eq_true_eq]
      omega
    have htop : (xs.filter fun x => level x < d + 1).filter (fun x => !decide (level x < d)) =
        xs.filter fun x => level x == d := by
      rw [List.filter_filter]
      apply List.filter_congr
      intro x _
      rw [Bool.eq_iff_iff]
      simp only [Bool.and_eq_true, Bool.not_eq_true', decide_eq_false_iff_not, decide_eq_true_eq,
        beq_iff_eq]
      omega
    rw [hlow, htop] at hsplit
    rw [List.range_succ, List.flatMap_append, List.flatMap_singleton]
    exact hsplit.trans (by simpa using ih.append [] _)

/-- Exchanges make no difference to a run in which the two members commute. -/
theorem Exchanges.foldl_eq {σ : Type*} {f : σ → α → σ}
    (hf : ∀ {a b}, R a b → ∀ s, f (f s a) b = f (f s b) a) {xs ys : List α}
    (h : Exchanges R xs ys) (s : σ) : xs.foldl f s = ys.foldl f s := by
  induction h with
  | refl => rfl
  | tail _ hstep ih =>
    obtain ⟨before, hab, after⟩ := hstep
    rw [ih, List.foldl_append, List.foldl_append]
    simp only [List.foldl_cons, hf hab]

/-- Nor does the order inside the parts of a list, if members of one part commute. -/
theorem foldl_flatten_eq {σ : Type*} {f : σ → α → σ} {order parts : List (List α)}
    (hf : ∀ part ∈ parts, ∀ a ∈ part, ∀ b ∈ part, ∀ s, f (f s a) b = f (f s b) a)
    (h : List.Forall₂ List.Perm order parts) (s : σ) :
    order.flatten.foldl f s = parts.flatten.foldl f s := by
  induction h generalizing s with
  | nil => rfl
  | @cons part part' order parts hperm _ ih =>
    rw [List.forall_mem_cons] at hf
    have hpart : part.foldl f s = part'.foldl f s := by
      refine hperm.foldl_eq' (fun a ha b hb s => ?_) s
      exact hf.1 a (hperm.mem_iff.1 ha) b (hperm.mem_iff.1 hb) s
    rw [List.flatten_cons, List.flatten_cons, List.foldl_append, List.foldl_append, hpart,
      ih hf.2]

end Exchanges

/-! ### Layers of a circuit -/

namespace Circuit

/-- Commands `i` and `j` have no wire in common. -/
def Independent (c : Circuit) (i j : Nat) : Prop := ∀ w ∈ c.wiresAt i, w ∉ c.wiresAt j

theorem layers_eq (c : Circuit) : c.layers = (List.range c.depth).map fun l =>
    (List.range c.commands.length).filter fun i => c.level i == l := by
  have hnumbered : c.levels.zipIdx =
      (List.range c.commands.length).map fun i => (c.level i, i) := by
    apply List.ext_getElem
    · simp [length_levels]
    · intro i hi _
      have hlevel : i < c.levels.length := by simpa using hi
      simp [level, List.getElem?_eq_getElem hlevel]
  rw [layers, hnumbered]
  simp [List.filter_map, Function.comp_def]

theorem level_lt_depth {c : Circuit} {i : Nat} (h : i < c.commands.length) :
    c.level i < c.depth := by
  have hlevel : i < c.levels.length := by rwa [length_levels]
  have hmem : c.level i ∈ c.levels := by
    rw [level, List.getD_eq_getElem _ _ hlevel]
    exact List.getElem_mem hlevel
  exact Schedule.le_foldl_max (List.mem_map_of_mem hmem)

/-- A command that is not in an earlier layer than a later one shares no wire with it. -/
theorem pairwise_independent (c : Circuit) (n : Nat) :
    (List.range n).Pairwise fun i j => c.level j ≤ c.level i → c.Independent i j := by
  refine List.pairwise_lt_range.imp fun {i j} hij hlevel w hi hj => ?_
  exact absurd (level_lt_of_shared hij hi hj) (by omega)

theorem independent_of_mem_layer {c : Circuit} {layer : List Nat} (h : layer ∈ c.layers) {i j : Nat}
    (hi : i ∈ layer) (hj : j ∈ layer) (hij : i ≠ j) : c.Independent i j := by
  rw [layers_eq] at h
  obtain ⟨l, -, rfl⟩ := List.mem_map.1 h
  simp only [List.mem_filter, beq_iff_eq] at hi hj
  intro w hwi hwj
  rcases Nat.lt_or_gt_of_ne hij with hlt | hlt
  · have hlevel := level_lt_of_shared hlt hwi hwj
    omega
  · have hlevel := level_lt_of_shared hlt hwj hwi
    omega

theorem exchanges_layers_flatten (c : Circuit) :
    Exchanges c.Independent (List.range c.commands.length) c.layers.flatten := by
  have hpass := (c.pairwise_independent c.commands.length).imp
    fun {i j} hij (hlt : c.level j < c.level i) => hij (Nat.le_of_lt hlt)
  have hmoved := exchanges_layers c.level hpass c.depth
  have hall : (List.range c.commands.length).filter (fun i => c.level i < c.depth) =
      List.range c.commands.length := by
    rw [List.filter_eq_self]
    intro i hi
    exact decide_eq_true (level_lt_depth (List.mem_range.1 hi))
  rw [hall] at hmoved
  rw [layers_eq, ← List.flatMap_def]
  exact hmoved

/-! ### Runs -/

section Runs

variable {σ : Type*} (run : Command → σ → σ)

/-- Runs command `i`, if there is one. -/
def runAt (c : Circuit) (s : σ) (i : Nat) : σ := c.commands[i]?.elim s (run · s)

/-- Runs the commands with the given numbers. -/
def runOrder (c : Circuit) (order : List Nat) (s : σ) : σ := order.foldl (c.runAt run) s

/-- All commands in their own order. -/
theorem runOrder_range (c : Circuit) (s : σ) :
    c.runOrder run (List.range c.commands.length) s =
      c.commands.foldl (fun s command => run command s) s := by
  have hnumbers : (List.range c.commands.length).map (c.commands[·]?) = c.commands.map some := by
    apply List.ext_getElem?
    intro i
    by_cases hi : i < c.commands.length <;> simp [hi]
  calc c.runOrder run (List.range c.commands.length) s
      = ((List.range c.commands.length).map (c.commands[·]?)).foldl
          (fun s command => command.elim s (run · s)) s := by rw [List.foldl_map]; rfl
    _ = c.commands.foldl (fun s command => run command s) s := by
        rw [hnumbers, List.foldl_map]; rfl

variable {run}

/-- Commands that commute when their wires differ. -/
def Commutes (run : Command → σ → σ) (c : Circuit) : Prop :=
  ∀ a ∈ c.commands, ∀ b ∈ c.commands, (∀ w ∈ a.wires, w ∉ b.wires) →
    ∀ s, run b (run a s) = run a (run b s)

theorem runAt_comm {c : Circuit} (h : c.Commutes run) {i j : Nat} (hij : c.Independent i j)
    (s : σ) : c.runAt run (c.runAt run s i) j = c.runAt run (c.runAt run s j) i := by
  unfold runAt
  cases hi : c.commands[i]? with
  | none => rfl
  | some a =>
    cases hj : c.commands[j]? with
    | none => rfl
    | some b =>
      refine h a (List.mem_of_getElem? hi) b (List.mem_of_getElem? hj) ?_ s
      simpa [Independent, wiresAt, hi, hj] using hij

end Runs

/-- The layers put together are the commands in another order, to which exchanges of
neighbours without a common wire lead. So whatever commands do, as long as those on different
wires commute, running layer after layer, in any order inside each, ends like running the
circuit. -/
theorem runs_by_layers (c : Circuit) :
    c.layers.flatten.Perm (List.range c.commands.length) ∧
      Exchanges c.Independent (List.range c.commands.length) c.layers.flatten ∧
      ∀ {σ : Type*} {run : Command → σ → σ}, c.Commutes run →
        ∀ order, List.Forall₂ List.Perm order c.layers → ∀ s,
          c.runOrder run order.flatten s = c.commands.foldl (fun s command => run command s) s := by
  have hmoved := c.exchanges_layers_flatten
  refine ⟨hmoved.perm.symm, hmoved, ?_⟩
  intro σ run hrun order horder s
  have hlayer : ∀ layer ∈ c.layers, ∀ i ∈ layer, ∀ j ∈ layer, ∀ s,
      c.runAt run (c.runAt run s i) j = c.runAt run (c.runAt run s j) i := by
    intro layer hlayer i hi j hj s
    by_cases hij : i = j
    · rw [hij]
    · exact runAt_comm hrun (independent_of_mem_layer hlayer hi hj hij) s
  calc c.runOrder run order.flatten s
      = c.runOrder run c.layers.flatten s := foldl_flatten_eq hlayer horder s
    _ = c.runOrder run (List.range c.commands.length) s :=
        (hmoved.foldl_eq (fun hij s => runAt_comm hrun hij s) s).symm
    _ = c.commands.foldl (fun s command => run command s) s := c.runOrder_range run s

/-- Two flips and, between them, a gate on the qubit of the first. -/
def staircase : Circuit :=
  (Call.gate .x [.ofIndex 2]).leaves ((Call.gate .cx [.ofIndex 0, .ofIndex 1]).leaves
    ((Call.gate .x [.ofIndex 0]).leaves (.withQubits 3)))

/-- Every wire remembers the operations on it. -/
def remember (command : Command) (s : Wire → List OpType) (w : Wire) : List OpType :=
  if w ∈ command.wires then command.op.type :: s w else s w

theorem remember_commutes (c : Circuit) : c.Commutes remember := by
  intro a _ b _ hab s
  funext w
  by_cases ha : w ∈ a.wires
  · simp [remember, ha, hab w ha]
  · simp [remember, ha]

theorem runs_by_layers_staircase :
    staircase.layers = [[0, 2], [1]] ∧
      staircase.runOrder remember [2, 0, 1] (fun _ => []) =
        staircase.commands.foldl (fun s command => remember command s) fun _ => [] := by
  have hlayers : staircase.layers = [[0, 2], [1]] := by decide +kernel
  refine ⟨hlayers, staircase.runs_by_layers.2.2 (remember_commutes _) [[2, 0], [1]] ?_ _⟩
  rw [hlayers]
  exact .cons (.swap 0 2 []) (.cons (.refl [1]) .nil)

end Circuit

end QuantumCircuit
