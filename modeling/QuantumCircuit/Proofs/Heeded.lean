import QuantumCircuit.Proofs.Spelled

/-! The parts of a value that a reader of documents looks at. What stands under a key it does not
know is passed over, except in an operation, where it is refused; so which members count depends
on the place at which an object stands. Two values are alike when they have the same parts that
count, in whatever order the members come. -/

namespace QuantumCircuit

/-! ### Places -/

/-- Where in a document a value can stand. Scalars, units, pairs and types are not told apart. -/
inductive Document.Place where
  | circuit
  | commands
  | command
  | op
  | box
  | conditional
  | other
deriving DecidableEq

namespace Document.Place

/-- The keys of a record, in the order in which an array lists their values. -/
def fields : Place → List String
  | circuit => ["bits", "commands", "implicit_permutation", "name", "phase", "qubits"]
  | command => ["args", "op", "opgroup"]
  | op => ["box", "conditional", "type"]
  | box => ["circuit", "id", "type"]
  | conditional => ["op", "value", "width"]
  | commands => []
  | other => []

/-- The place of what stands under a key. -/
def under : Place → String → Place
  | circuit, "commands" => commands
  | command, "op" => op
  | op, "box" => box
  | op, "conditional" => conditional
  | box, "circuit" => circuit
  | conditional, "op" => op
  | _, _ => other

/-- The place of the item at an index of an array. -/
def item : Place → Nat → Place
  | commands, _ => command
  | p, i => (p.fields[i]?).elim other p.under

/-- Whether the member under the key is passed over. -/
def ignores (p : Place) (key : String) : Bool :=
  match p with
  | circuit | command | box | conditional => decide (key ∉ p.fields)
  | commands | op | other => false

theorem ignores_of_mem_fields {p : Place} {key : String} (h : key ∈ p.fields) :
    p.ignores key = false := by
  cases p <;> simp [ignores, h]

/-- A field has the same place in both ways to write a record. -/
theorem item_idxOf {p : Place} {key : String} (h : key ∈ p.fields) :
    p.item (p.fields.idxOf key) = p.under key := by
  have hkey : p.fields[p.fields.idxOf key]? = some key := List.getElem?_idxOf h
  cases p with
  | commands => cases h
  | _ => rw [item, hkey, Option.elim_some]; simp

end Document.Place

namespace Json

open Document (Place)

mutual

/-- The value without the members that are passed over. -/
def pruned (p : Place) : Json → Json
  | .array items => .array (prunedItems p 0 items)
  | .object members => .object (prunedMembers p members)
  | v => v

def prunedItems (p : Place) (i : Nat) : List Json → List Json
  | [] => []
  | v :: vs => v.pruned (p.item i) :: prunedItems p (i + 1) vs

def prunedMembers (p : Place) : List (String × Json) → List (String × Json)
  | [] => []
  | (k, v) :: ms =>
    if p.ignores k then prunedMembers p ms
    else (k, v.pruned (p.under k)) :: prunedMembers p ms

end

/-! ### Likeness -/

/-- The values agree in all that is heeded when they stand at the given place, and none of the
objects in question has a key twice. -/
inductive Alike : Place → Json → Json → Prop
  | scalar {p : Place} {v : Json} (h : v.depth = 0) : Alike p v v
  | array {p : Place} {vs ws : List Json} (hlength : vs.length = ws.length)
      (h : ∀ i v w, vs[i]? = some v → ws[i]? = some w → Alike (p.item i) v w) :
      Alike p (.array vs) (.array ws)
  | object {p : Place} {ms ns : List (String × Json)} (hms : (keysOf ms).Nodup)
      (hns : (keysOf ns).Nodup)
      (hkeys : ∀ k, p.ignores k = false → (ms.lookup k = none ↔ ns.lookup k = none))
      (h : ∀ k v w, p.ignores k = false → ms.lookup k = some v → ns.lookup k = some w →
        Alike (p.under k) v w) :
      Alike p (.object ms) (.object ns)

theorem Alike.symm {p : Place} {v w : Json} (h : Alike p v w) : Alike p w v := by
  induction h with
  | scalar h => exact .scalar h
  | array hlength _ ih => exact .array hlength.symm fun i v w hv hw => ih i w v hw hv
  | object hms hns hkeys _ ih =>
    exact .object hns hms (fun k hk => (hkeys k hk).symm) fun k v w hk hv hw => ih k w v hk hw hv

theorem mem_of_lookup {ms : List (String × Json)} {k : String} {v : Json}
    (h : ms.lookup k = some v) : (k, v) ∈ ms := by
  obtain ⟨before, after, rfl, -⟩ := List.lookup_eq_some_iff.1 h
  exact List.mem_append_right before List.mem_cons_self

theorem lookup_map_members (f : Json → Json) (ms : List (String × Json)) (k : String) :
    (ms.map fun m => (m.1, f m.2)).lookup k = (ms.lookup k).map f := by
  induction ms with
  | nil => rfl
  | cons m ms ih =>
    rw [List.map_cons, lookup_cons_eq_ite, ih]
    change _ = (((m.1, m.2) :: ms).lookup k).map f
    rw [lookup_cons_eq_ite]
    split_ifs <;> rfl

theorem keysOf_map (f : Json → Json) (ms : List (String × Json)) :
    keysOf (ms.map fun m => (m.1, f m.2)) = keysOf ms := by
  simp [keysOf, Function.comp_def]

/-- The order of the keys is not heeded. -/
theorem KeysOnce.alike_sorted {v : Json} (h : v.KeysOnce) (p : Place) : Alike p v v.sorted := by
  induction h generalizing p with
  | scalar h =>
    rw [sorted_of_depth_zero h]
    exact .scalar h
  | @array items _ ih =>
    rw [sorted, sortedItems_eq_map]
    refine .array (by simp) fun i v w hv hw => ?_
    rw [List.getElem?_map, hv] at hw
    cases hw
    exact ih v (List.mem_of_getElem? hv) _
  | @object members hk _ ih =>
    have hlookup (k : String) : (arrange (members.map fun m => (m.1, m.2.sorted))).lookup k =
        (members.lookup k).map sorted := by
      rw [lookup_arrange (by rwa [keysOf_map]), lookup_map_members]
    rw [sorted, sortedMembers_eq_map]
    refine .object hk (nodup_of_ascending (ascending_arrange _)) ?_ ?_
    · intro k _
      rw [hlookup, Option.map_eq_none_iff]
    · intro k v w _ hv hw
      rw [hlookup, hv] at hw
      cases hw
      exact ih (k, v) (mem_of_lookup hv) _

theorem KeysOnce.sorted_ordered {v : Json} (h : v.KeysOnce) : v.sorted.Ordered := by
  induction h with
  | scalar h =>
    rw [sorted_of_depth_zero h]
    exact .scalar h
  | @array items _ ih =>
    rw [sorted, sortedItems_eq_map]
    exact .array (by simpa using ih)
  | @object members hk _ ih =>
    have hkeys : (keysOf (members.map fun m => (m.1, m.2.sorted))).Nodup := by rwa [keysOf_map]
    rw [sorted, sortedMembers_eq_map]
    refine .object (ascending_arrange _) fun m hm => ?_
    -- a member of the arranged object is found by its key, and so comes from the original
    have hlookup := (lookup_eq_some_iff_mem (nodup_of_ascending (ascending_arrange _)) m.1 m.2).2 hm
    rw [lookup_arrange hkeys, lookup_map_members, Option.map_eq_some_iff] at hlookup
    obtain ⟨v, hv, he⟩ := hlookup
    rw [← he]
    exact ih (m.1, v) (mem_of_lookup hv)

theorem getElem?_prunedItems (p : Place) (n i : Nat) (vs : List Json) :
    (prunedItems p n vs)[i]? = (vs[i]?).map (pruned (p.item (n + i))) := by
  induction vs generalizing n i with
  | nil => rfl
  | cons v vs ih =>
    rw [prunedItems]
    cases i with
    | zero => rfl
    | succ i =>
      rw [List.getElem?_cons_succ, List.getElem?_cons_succ, ih, Nat.add_assoc, Nat.add_comm 1 i]

theorem lookup_prunedMembers {p : Place} {k : String} (hk : p.ignores k = false)
    (ms : List (String × Json)) :
    (prunedMembers p ms).lookup k = (ms.lookup k).map (pruned (p.under k)) := by
  induction ms with
  | nil => rfl
  | cons m ms ih =>
    obtain ⟨key, v⟩ := m
    rw [prunedMembers, lookup_cons_eq_ite]
    by_cases hkey : k = key
    · subst hkey
      simp [hk]
    · split_ifs
      · rw [ih]
      · rw [lookup_cons_eq_ite, if_neg hkey, ih]

theorem keysOf_prunedMembers (p : Place) (ms : List (String × Json)) :
    (keysOf (prunedMembers p ms)).Sublist (keysOf ms) := by
  induction ms with
  | nil => exact .slnil
  | cons m ms ih =>
    obtain ⟨key, v⟩ := m
    rw [prunedMembers]
    split_ifs
    · exact ih.cons key
    · exact ih.cons_cons key

/-- What is passed over is not heeded. -/
theorem Ordered.alike_pruned {v : Json} (h : v.Ordered) (p : Place) : Alike p v (v.pruned p) := by
  induction h generalizing p with
  | @scalar v h =>
    have hpruned : v.pruned p = v := by
      cases v with
      | array items => cases h
      | object members => cases h
      | _ => rfl
    rw [hpruned]
    exact .scalar h
  | @array items _ ih =>
    have hitem := getElem?_prunedItems p 0
    simp only [Nat.zero_add] at hitem
    have hlength : ∀ i vs, (prunedItems p i vs).length = vs.length := by
      intro i vs
      induction vs generalizing i with
      | nil => rfl
      | cons v vs ih => rw [prunedItems, List.length_cons, ih, List.length_cons]
    rw [pruned]
    refine .array (hlength 0 items).symm fun i v w hv hw => ?_
    rw [hitem, hv] at hw
    cases hw
    exact ih v (List.mem_of_getElem? hv) _
  | @object members hk _ ih =>
    have honce := nodup_of_ascending hk
    rw [pruned]
    refine .object honce (honce.sublist (keysOf_prunedMembers p members)) ?_ ?_
    · intro k hheeded
      rw [lookup_prunedMembers hheeded, Option.map_eq_none_iff]
    · intro k v w hheeded hv hw
      rw [lookup_prunedMembers hheeded, hv] at hw
      cases hw
      exact ih (k, v) (mem_of_lookup hv) _

/-! ### Records -/

/-- The value of a field, in an object or in an array of the fields. -/
def entry (p : Place) (v : Json) (key : String) : Option Json :=
  match v with
  | .array vs => vs[p.fields.idxOf key]?
  | .object ms => ms.lookup key
  | _ => none

/-- The value has no more in it than a record at that place may have. -/
def Admitted (p : Place) : Json → Prop
  | .array vs => vs.length ≤ p.fields.length
  | .object ms => ∀ k ∈ keysOf ms, k ∈ p.fields ∨ p.ignores k
  | _ => False

theorem Alike.admitted {p : Place} {v w : Json} (h : Alike p v w) (hv : v.Admitted p) :
    w.Admitted p := by
  cases h with
  | scalar => exact hv
  | @array _ vs ws hlength =>
    change ws.length ≤ p.fields.length
    rw [← hlength]
    exact hv
  | @object _ ms ns _ _ hkeys =>
    intro k hk
    cases hheeded : p.ignores k with
    | true => exact .inr rfl
    | false =>
      have hmem : k ∈ keysOf ms := by
        by_contra hout
        have hnone := (hkeys k hheeded).1 (lookup_eq_none_iff_notMem.2 hout)
        exact lookup_eq_none_iff_notMem.1 hnone hk
      simpa [hheeded] using hv k hmem

theorem Alike.entry_eq_none {p : Place} {v w : Json} (h : Alike p v w) {key : String}
    (hkey : key ∈ p.fields) (hv : v.entry p key = none) : w.entry p key = none := by
  cases h with
  | scalar => exact hv
  | array hlength =>
    simp only [entry, List.getElem?_eq_none_iff] at hv ⊢
    omega
  | object _ _ hkeys => exact (hkeys key (Place.ignores_of_mem_fields hkey)).1 hv

theorem Alike.entry {p : Place} {v w : Json} (h : Alike p v w) {key : String}
    (hkey : key ∈ p.fields) {x : Json} (hx : v.entry p key = some x) :
    ∃ y, w.entry p key = some y ∧ Alike (p.under key) x y := by
  cases hw : w.entry p key with
  | none =>
    rw [h.symm.entry_eq_none hkey hw] at hx
    cases hx
  | some y =>
    refine ⟨y, rfl, ?_⟩
    cases h with
    | scalar hd =>
      cases v with
      | array vs => cases hd
      | object ms => cases hd
      | _ => cases hx
    | array _ h =>
      rw [← Place.item_idxOf hkey]
      exact h _ x y hx hw
    | object _ _ _ h => exact h key x y (Place.ignores_of_mem_fields hkey) hx hw

theorem depth_le_of_entry {p : Place} {v x : Json} {key : String} {n : Nat}
    (hv : v.depth ≤ n + 1) (hx : v.entry p key = some x) : x.depth ≤ n := by
  cases v with
  | array vs => exact depth_array_le_iff.1 hv x (List.mem_of_getElem? hx)
  | object ms => exact depth_object_le_iff.1 hv (key, x) (mem_of_lookup hx)
  | _ => cases hx

end Json

end QuantumCircuit
