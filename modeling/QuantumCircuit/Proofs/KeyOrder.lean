import Mathlib.Data.List.Basic
import QuantumCircuit.Document.Json

/-! Objects with their keys in ascending order. Arranging the members of an object changes
neither what stands under a key nor, where they are ascending already, anything at all; so
values that are ordered throughout are their own sorted form. Documents are written this way. -/

namespace QuantumCircuit

theorem lookup_cons_eq_ite {α β : Type} [BEq α] [LawfulBEq α] [DecidableEq α] (k key : α)
    (value : β) (entries : List (α × β)) :
    ((key, value) :: entries).lookup k = if k = key then some value else entries.lookup k := by
  by_cases h : k = key
  · simp [h]
  · rw [List.lookup_cons, beq_false_of_ne h, if_neg h]

namespace Json

/-! ### Members -/

/-- The keys of an object's members. -/
def keysOf (members : List (String × Json)) : List String := members.map Prod.fst

theorem lookup_eq_none_iff_notMem {members : List (String × Json)} {key : String} :
    members.lookup key = none ↔ key ∉ keysOf members := by
  induction members with
  | nil => simp [keysOf]
  | cons m members ih =>
    obtain ⟨k, v⟩ := m
    by_cases hk : key = k <;> simp [lookup_cons_eq_ite, keysOf, hk] at ih ⊢
    exact ih

theorem lookup_insertMember (key k : String) (value : Json) (members : List (String × Json)) :
    (insertMember key value members).lookup k =
      if k = key then some value else members.lookup k := by
  fun_induction insertMember key value members with
  | case1 => rw [lookup_cons_eq_ite]
  | case2 k' v rest hlt => rw [lookup_cons_eq_ite]
  | case3 v rest hlt =>
    rw [lookup_cons_eq_ite, lookup_cons_eq_ite]
    split_ifs <;> rfl
  | case4 k' v rest hlt hne ih =>
    rw [lookup_cons_eq_ite, ih, lookup_cons_eq_ite]
    -- the two keys differ, so the order of the questions does not matter
    split_ifs with h₁ h₂
    · exact absurd (h₂.symm.trans h₁) hne
    all_goals rfl

theorem lookup_foldl_insertMember {members : List (String × Json)} (h : (keysOf members).Nodup)
    (k : String) (known : List (String × Json)) :
    (members.foldl (fun ms (k, v) => insertMember k v ms) known).lookup k =
      (members.lookup k).or (known.lookup k) := by
  induction members generalizing known with
  | nil => rfl
  | cons m members ih =>
    obtain ⟨key, value⟩ := m
    rw [keysOf, List.map_cons, List.nodup_cons] at h
    rw [List.foldl_cons, ih h.2, lookup_insertMember, lookup_cons_eq_ite]
    by_cases hk : k = key
    · subst hk
      rw [lookup_eq_none_iff_notMem.2 h.1, if_pos rfl, if_pos rfl]
      rfl
    · rw [if_neg hk, if_neg hk]

/-- Arranging members keeps what stands under each key, if no key comes twice. -/
theorem lookup_arrange {members : List (String × Json)} (h : (keysOf members).Nodup)
    (k : String) : (arrange members).lookup k = members.lookup k := by
  rw [arrange, lookup_foldl_insertMember h]
  simp

theorem mem_keysOf_insertMember {key k : String} {value : Json}
    {members : List (String × Json)} (h : k ∈ keysOf (insertMember key value members)) :
    k = key ∨ k ∈ keysOf members := by
  by_contra hout
  rw [not_or] at hout
  have hnone := lookup_insertMember key k value members
  rw [if_neg hout.1, lookup_eq_none_iff_notMem.2 hout.2, lookup_eq_none_iff_notMem] at hnone
  exact hnone h

theorem ascending_insertMember {key : String} {value : Json} {members : List (String × Json)}
    (h : (keysOf members).Pairwise (· < ·)) :
    (keysOf (insertMember key value members)).Pairwise (· < ·) := by
  fun_induction insertMember key value members with
  | case1 => simp [keysOf]
  | case2 k v rest hlt =>
    have hrest := List.pairwise_cons.1 h
    refine List.pairwise_cons.2 ⟨fun k' hk' => ?_, h⟩
    rcases List.mem_cons.1 hk' with rfl | hk'
    · exact hlt
    · exact String.lt_trans hlt (hrest.1 k' hk')
  | case3 v rest hlt => exact h
  | case4 k v rest hlt hne ih =>
    have hrest := List.pairwise_cons.1 h
    refine List.pairwise_cons.2 ⟨fun k' hk' => ?_, ih hrest.2⟩
    rcases mem_keysOf_insertMember hk' with rfl | hk'
    · exact Std.lt_of_le_of_ne (String.not_lt.1 hlt) (Ne.symm hne)
    · exact hrest.1 k' hk'

theorem ascending_arrange (members : List (String × Json)) :
    (keysOf (arrange members)).Pairwise (· < ·) := by
  have hfold : ∀ (members known : List (String × Json)), (keysOf known).Pairwise (· < ·) →
      (keysOf (members.foldl (fun ms (k, v) => insertMember k v ms) known)).Pairwise (· < ·) := by
    intro members
    induction members with
    | nil => exact fun known h => h
    | cons m members ih => exact fun known h => ih _ (ascending_insertMember h)
  exact hfold members [] .nil

theorem insertMember_of_lt {key : String} {value : Json} {members : List (String × Json)}
    (h : ∀ k ∈ keysOf members, k < key) :
    insertMember key value members = members ++ [(key, value)] := by
  fun_induction insertMember key value members with
  | case1 => rfl
  | case2 k v rest hlt => exact absurd hlt (String.lt_asymm (h k List.mem_cons_self))
  | case3 v rest hlt => exact absurd (h key List.mem_cons_self) hlt
  | case4 k v rest hlt hne ih =>
    rw [ih fun k' hk' => h k' (List.mem_cons_of_mem k hk'), List.cons_append]

/-- Members in ascending order are left as they are. -/
theorem arrange_of_ascending {members : List (String × Json)}
    (h : (keysOf members).Pairwise (· < ·)) : arrange members = members := by
  have hfold : ∀ (members known : List (String × Json)),
      (keysOf (known ++ members)).Pairwise (· < ·) →
      members.foldl (fun ms (k, v) => insertMember k v ms) known = known ++ members := by
    intro members
    induction members with
    | nil => simp
    | cons m members ih =>
      intro known h
      obtain ⟨key, value⟩ := m
      have hlast : insertMember key value known = known ++ [(key, value)] := by
        apply insertMember_of_lt
        rw [keysOf, List.map_append, List.pairwise_append] at h
        exact fun k hk => h.2.2 k hk key List.mem_cons_self
      rw [List.foldl_cons]
      dsimp only
      rw [hlast, ih]
      · simp
      · simpa using h
  exact hfold members [] h

theorem nodup_of_ascending {keys : List String} (h : keys.Pairwise (· < ·)) : keys.Nodup := by
  refine List.Pairwise.imp ?_ h
  rintro a b hlt rfl
  exact String.lt_irrefl a hlt

/-! ### Values -/

/-- Every object in the value has its keys in ascending order. -/
inductive Ordered : Json → Prop
  | scalar {v : Json} (h : v.depth = 0) : Ordered v
  | array {items : List Json} (h : ∀ v ∈ items, Ordered v) : Ordered (.array items)
  | object {members : List (String × Json)} (hk : (keysOf members).Pairwise (· < ·))
      (h : ∀ m ∈ members, Ordered m.2) : Ordered (.object members)

theorem Ordered.string (s : String) : Ordered (.string s) := .scalar rfl

theorem Ordered.natural (n : Nat) : Ordered (.natural n) := .scalar rfl

theorem ordered_array_iff {items : List Json} :
    (Json.array items).Ordered ↔ ∀ v ∈ items, v.Ordered := by
  constructor
  · rintro (h | h)
    · simp [depth] at h
    · exact h
  · exact .array

theorem ordered_object_iff {members : List (String × Json)} :
    (Json.object members).Ordered ↔
      (keysOf members).Pairwise (· < ·) ∧ ∀ m ∈ members, m.2.Ordered := by
  constructor
  · rintro (h | h | ⟨hk, h⟩)
    · simp [depth] at h
    · exact ⟨hk, h⟩
  · exact fun ⟨hk, h⟩ => .object hk h

theorem sortedItems_eq_map (items : List Json) : sortedItems items = items.map sorted := by
  induction items with
  | nil => rfl
  | cons v vs ih => rw [sortedItems, ih, List.map_cons]

theorem sortedMembers_eq_map (members : List (String × Json)) :
    sortedMembers members = members.map fun m => (m.1, m.2.sorted) := by
  induction members with
  | nil => rfl
  | cons m ms ih => rw [sortedMembers, ih, List.map_cons]

theorem sorted_of_depth_zero {v : Json} (h : v.depth = 0) : v.sorted = v := by
  cases v with
  | array items => simp [depth] at h
  | object members => simp [depth] at h
  | _ => rfl

theorem Ordered.sorted_eq {v : Json} (h : v.Ordered) : v.sorted = v := by
  induction h with
  | scalar h => exact sorted_of_depth_zero h
  | @array items _ ih =>
    have hitems : items.map sorted = items := by
      simpa using List.map_congr_left ih
    rw [sorted, sortedItems_eq_map, hitems]
  | @object members hk _ ih =>
    have hmembers : members.map (fun m => (m.1, m.2.sorted)) = members := by
      conv_rhs => rw [← List.map_id members]
      exact List.map_congr_left fun m hm => Prod.ext rfl (ih m hm)
    rw [sorted, sortedMembers_eq_map, hmembers, arrange_of_ascending hk]

end Json

open Json

/-! ### Documents -/

theorem UnitId.json_ordered (u : UnitId) : u.json.Ordered := by
  have hindex : ∀ v ∈ u.index.map fun i => Json.natural i.toNat, v.Ordered := by
    intro v hv
    obtain ⟨i, -, rfl⟩ := List.mem_map.1 hv
    exact .natural i.toNat
  refine .array ?_
  simpa using ⟨Ordered.string u.register, Ordered.array hindex⟩

namespace Document

theorem units_ordered (us : List UnitId) : (Json.array (us.map UnitId.json)).Ordered := by
  refine .array fun v hv => ?_
  obtain ⟨u, -, rfl⟩ := List.mem_map.1 hv
  exact u.json_ordered

theorem pairs_ordered (ps : List (UnitId × UnitId)) :
    (Json.array (ps.map fun (u, v) => .array [u.json, v.json])).Ordered := by
  refine .array fun v hv => ?_
  obtain ⟨p, -, rfl⟩ := List.mem_map.1 hv
  exact .array (by simpa using ⟨p.1.json_ordered, p.2.json_ordered⟩)

mutual

/-- Documents are written with their keys in ascending order. -/
theorem json_ordered : ∀ d : Document, d.json.Ordered
  | ⟨bits, commands, permutation, name, phase, qubits⟩ => by
    have hcommands := Ordered.array (commandsJson_ordered commands)
    rw [Document.json]
    refine .object ?_ ?_
    · cases name with
      | none =>
        change ["bits", "commands", "implicit_permutation", "phase", "qubits"].Pairwise (· < ·)
        decide
      | some name =>
        change ["bits", "commands", "implicit_permutation", "name", "phase", "qubits"].Pairwise
          (· < ·)
        decide
    · cases name <;>
        simp [Json.optional, units_ordered, pairs_ordered, hcommands, Ordered.string]

theorem commandsJson_ordered : ∀ cs : List Command, ∀ v ∈ commandsJson cs, v.Ordered
  | [] => by simp [commandsJson]
  | ⟨args, op, opgroup⟩ :: cs => by
    have hop := Op.json_ordered op
    have hcommand : (Command.mk args op opgroup).json.Ordered := by
      rw [Command.json]
      refine .object ?_ ?_
      · cases opgroup with
        | none => change ["args", "op"].Pairwise (· < ·); decide
        | some label => change ["args", "op", "opgroup"].Pairwise (· < ·); decide
      · cases opgroup <;> simp [Json.optional, units_ordered, hop, Ordered.string]
    simpa [commandsJson] using ⟨hcommand, commandsJson_ordered cs⟩

theorem Op.json_ordered : ∀ op : Op, op.json.Ordered
  | ⟨box, conditional, type⟩ => by
    have hbox := Box.json_ordered box
    have hconditional := Conditional.json_ordered conditional
    rw [Op.json.eq_def]
    refine .object ?_ ?_
    · have hall : ["box", "conditional", "type"].Pairwise (· < ·) := by decide
      cases box with
      | none =>
        cases conditional with
        | none => exact hall.sublist (.cons _ (.cons _ (.refl _)))
        | some conditional => exact hall.sublist (.cons _ (.refl _))
      | some box =>
        cases conditional with
        | none => exact hall.sublist (.cons_cons _ (.cons _ (.refl _)))
        | some conditional => exact hall
    · cases box <;> cases conditional <;> simp_all [OpType.json, Ordered.string]

theorem Box.json_ordered : ∀ (box : Option Box), ∀ b ∈ box, b.json.Ordered
  | none, _, hb => nomatch hb
  | some ⟨circuit, id, type⟩, _, rfl => by
    have hcircuit := Document.json_ordered circuit
    rw [Box.json]
    have hkeys : ["circuit", "id", "type"].Pairwise (· < ·) := by decide
    exact .object hkeys (by simp [hcircuit, OpType.json, Ordered.string])

theorem Conditional.json_ordered : ∀ (conditional : Option Conditional), ∀ c ∈ conditional,
    c.json.Ordered
  | none, _, hc => nomatch hc
  | some ⟨op, value, width⟩, _, rfl => by
    have hop := Op.json_ordered op
    rw [Conditional.json]
    have hkeys : ["op", "value", "width"].Pairwise (· < ·) := by decide
    exact .object hkeys (by simp [hop, Ordered.natural])

end

end Document

end QuantumCircuit
