import QuantumCircuit.Proofs.Canonical
import QuantumCircuit.Proofs.Heeded

/-! Keys in the order of their bytes. Texts are compared by their characters, and this is also
the order of their bytes. A value has one form in which the keys of every object ascend, and
however its objects hold their members, sorting leads to that form. The text of a circuit is
written field by field and never sorted; it is the text of the sorted value all the same. -/

namespace QuantumCircuit

/-! ### Bytes -/

/-- The bytes of a text. -/
def utf8 (s : String) : List UInt8 := s.toUTF8.data.toList

theorem utf8_eq_flatMap (s : String) : utf8 s = s.toList.flatMap String.utf8EncodeChar := by
  conv_lhs => rw [← String.ofList_toList (s := s)]
  rw [utf8, String.toUTF8_eq_toByteArray, String.toByteArray_ofList, List.utf8Encode]
  simp

theorem ofNat_lt_ofNat {m n : Nat} (h : m < n) (hn : n < 256) : UInt8.ofNat m < UInt8.ofNat n :=
  (UInt8.ofNat_lt_iff_lt (Nat.lt_trans h hn) hn).2 h

/-- The last `k` bytes of a character that has more of them; each holds six bits. -/
def continuation (k n : Nat) : List UInt8 :=
  match k with
  | 0 => []
  | k + 1 => .ofNat (n / 64 ^ k % 64 + 0x80) :: continuation k n

theorem continuation_append_lt {k m n : Nat} (h : m < n) (hk : m / 64 ^ k = n / 64 ^ k)
    (l l' : List UInt8) : continuation k m ++ l < continuation k n ++ l' := by
  induction k with
  | zero =>
    simp only [Nat.pow_zero, Nat.div_one] at hk
    omega
  | succ k ih =>
    rw [Nat.pow_succ, ← Nat.div_div_eq_div_mul, ← Nat.div_div_eq_div_mul] at hk
    have hle : m / 64 ^ k ≤ n / 64 ^ k := Nat.div_le_div_right (Nat.le_of_lt h)
    rcases Nat.eq_or_lt_of_le hle with heq | hlt
    · rw [continuation, continuation, heq]
      exact .cons (ih heq)
    · exact .rel (ofNat_lt_ofNat (by omega) (by omega))

/-- Where two characters have the same number of bytes, the first byte holds what is left of the
number after the bytes that follow it. -/
theorem cons_continuation_append_lt (k b : Nat) {m n : Nat} (h : m < n)
    (hb : n / 64 ^ k + b < 256) (l l' : List UInt8) :
    UInt8.ofNat (m / 64 ^ k + b) :: (continuation k m ++ l) <
      UInt8.ofNat (n / 64 ^ k + b) :: (continuation k n ++ l') := by
  have hle : m / 64 ^ k ≤ n / 64 ^ k := Nat.div_le_div_right (Nat.le_of_lt h)
  rcases Nat.eq_or_lt_of_le hle with heq | hlt
  · rw [heq]
    exact .cons (continuation_append_lt h heq l l')
  · exact .rel (ofNat_lt_ofNat (by omega) hb)

/-- Of two characters the lesser one has the lesser bytes, whatever follows them. -/
theorem utf8EncodeChar_append_lt {c d : Char} (h : c < d) (l l' : List UInt8) :
    String.utf8EncodeChar c ++ l < String.utf8EncodeChar d ++ l' := by
  have hlt : c.val.toNat < d.val.toNat := h
  have hmax : d.val.toNat < 0x110000 := by
    rcases d.valid with hd | hd
    · exact Nat.lt_trans hd (by decide)
    · exact hd.2
  rw [String.utf8EncodeChar, String.utf8EncodeChar]
  generalize c.val.toNat = m at hlt ⊢
  generalize d.val.toNat = n at hlt hmax ⊢
  split_ifs
  -- the lesser character has no more bytes, and where it has fewer its first byte is less
  any_goals omega
  any_goals (refine .rel (ofNat_lt_ofNat ?_ ?_) <;> omega)
  · rw [Nat.mod_eq_of_lt (by omega : m / 64 < 0x20), Nat.mod_eq_of_lt (by omega : n / 64 < 0x20)]
    simpa [continuation] using cons_continuation_append_lt 1 0xc0 hlt (by omega) l l'
  · rw [Nat.mod_eq_of_lt (by omega : m / 4096 < 0x10),
      Nat.mod_eq_of_lt (by omega : n / 4096 < 0x10)]
    simpa [continuation] using cons_continuation_append_lt 2 0xe0 hlt (by omega) l l'
  · rw [Nat.mod_eq_of_lt (by omega : m / 262144 < 0x08),
      Nat.mod_eq_of_lt (by omega : n / 262144 < 0x08)]
    simpa [continuation] using cons_continuation_append_lt 3 0xf0 hlt (by omega) l l'

theorem utf8_lt_utf8 {s t : String} (h : s < t) : utf8 s < utf8 t := by
  rw [utf8_eq_flatMap, utf8_eq_flatMap]
  have hlist : s.toList < t.toList := h
  generalize s.toList = cs at hlist ⊢
  generalize t.toList = ds at hlist ⊢
  induction hlist with
  | @nil d ds =>
    obtain ⟨b, bs, hd⟩ := List.exists_cons_of_ne_nil (String.utf8EncodeChar_ne_nil (c := d))
    rw [List.flatMap_nil, List.flatMap_cons, hd]
    exact .nil
  | rel h => exact utf8EncodeChar_append_lt h _ _
  | cons _ ih => exact List.append_left_lt ih

/-- The order of texts is the order of their bytes. -/
theorem utf8_lt_utf8_iff {s t : String} : utf8 s < utf8 t ↔ s < t := by
  refine ⟨fun h => ?_, utf8_lt_utf8⟩
  by_contra hst
  by_cases heq : t = s
  · exact List.lt_irrefl _ (heq ▸ h)
  · exact List.lt_asymm h (utf8_lt_utf8 (Std.lt_of_le_of_ne (String.not_lt.1 hst) heq))

namespace Json

/-! ### Ascending keys -/

mutual

/-- In every object of the tree each key is greater, byte by byte, than the one before it. -/
def Tree.keysAscend : Tree → Bool
  | .array items => items.keysAscend
  | .object members => decide ((members.keys.map utf8).Pairwise (· < ·)) && members.keysAscend
  | _ => true

def Items.keysAscend : Items → Bool
  | .done _ => true
  | .item value rest => value.keysAscend && rest.keysAscend

def Members.keysAscend : Members → Bool
  | .done _ => true
  | .member _ value rest => value.keysAscend && rest.keysAscend

end

theorem pairwise_utf8_iff {keys : List String} :
    (keys.map utf8).Pairwise (· < ·) ↔ keys.Pairwise (· < ·) := by
  simp only [List.pairwise_map, utf8_lt_utf8_iff]

mutual

/-- The order of the keys in a text is that of the value it spells. -/
theorem keysAscend_tree_iff : ∀ v : Json, v.tree.keysAscend ↔ v.Ordered
  | .array items => by
    rw [tree, Tree.keysAscend, keysAscend_treeItems_iff items, ordered_array_iff]
  | .object members => by
    rw [tree, Tree.keysAscend, Bool.and_eq_true, decide_eq_true_iff, keys_treeMembers,
      pairwise_utf8_iff, keysAscend_treeMembers_iff members, ordered_object_iff]
  | .null => iff_of_true rfl (.scalar rfl)
  | .bool _ => iff_of_true rfl (.scalar rfl)
  | .number _ => iff_of_true rfl (.scalar rfl)
  | .string _ => iff_of_true rfl (.scalar rfl)

theorem keysAscend_treeItems_iff : ∀ vs : List Json,
    (treeItems vs).keysAscend ↔ ∀ v ∈ vs, v.Ordered
  | [] => by simp [treeItems, Items.keysAscend]
  | v :: vs => by
    rw [treeItems, Items.keysAscend, Bool.and_eq_true, keysAscend_tree_iff v,
      keysAscend_treeItems_iff vs, List.forall_mem_cons]

theorem keysAscend_treeMembers_iff : ∀ ms : List (String × Json),
    (treeMembers ms).keysAscend ↔ ∀ m ∈ ms, m.2.Ordered
  | [] => by simp [treeMembers, Members.keysAscend]
  | (k, v) :: ms => by
    rw [treeMembers, Members.keysAscend, Bool.and_eq_true, keysAscend_tree_iff v,
      keysAscend_treeMembers_iff ms, List.forall_mem_cons]

end

/-! ### One order among many -/

/-- The values differ only in the order in which their objects hold the members, at any depth,
and no object has a key twice: where no fields are expected, no member is passed over. -/
def Rearranged (v w : Json) : Prop := Alike .other v w

/-- Members in ascending order are determined by what stands under each key. -/
theorem eq_of_lookup_eq {ms ns : List (String × Json)} (hms : (keysOf ms).Pairwise (· < ·))
    (hns : (keysOf ns).Pairwise (· < ·)) (h : ∀ k, ms.lookup k = ns.lookup k) : ms = ns := by
  have hmem (m : String × Json) : m ∈ ms ↔ m ∈ ns := by
    rw [← lookup_eq_some_iff_mem (nodup_of_ascending hms) m.1 m.2, h,
      lookup_eq_some_iff_mem (nodup_of_ascending hns) m.1 m.2]
  have hperm : ms.Perm ns := (List.perm_ext_iff_of_nodup (nodup_of_ascending hms).of_map
    (nodup_of_ascending hns).of_map).2 hmem
  refine hperm.eq_of_pairwise ?_ (List.pairwise_map.1 hms) (List.pairwise_map.1 hns)
  exact fun m n _ _ hmn hnm => absurd hmn (String.lt_asymm hnm)

/-- However its members are arranged, a value is sorted into the same form. -/
theorem Rearranged.sorted_eq {v w : Json} (h : v.Rearranged w) : v.sorted = w.sorted := by
  unfold Rearranged at h
  generalize hp : Document.Place.other = p at h
  induction h with
  | scalar => rfl
  | @array _ vs ws hlength _ ih =>
    subst hp
    rw [sorted, sorted, sortedItems_eq_map, sortedItems_eq_map]
    congr 1
    refine List.ext_getElem (by simpa using hlength) fun i hv hw => ?_
    rw [List.getElem_map, List.getElem_map]
    exact ih i _ _ (List.getElem?_eq_getElem _) (List.getElem?_eq_getElem _) rfl
  | @object _ ms ns hms hns hkeys _ ih =>
    subst hp
    rw [sorted, sorted, sortedMembers_eq_map, sortedMembers_eq_map]
    congr 1
    refine eq_of_lookup_eq (ascending_arrange _) (ascending_arrange _) fun k => ?_
    rw [lookup_arrange (by rwa [keysOf_map]), lookup_arrange (by rwa [keysOf_map]),
      lookup_map_members, lookup_map_members]
    cases hv : ms.lookup k with
    | none => rw [(hkeys k rfl).1 hv]
    | some v =>
      cases hw : ns.lookup k with
      | none => rw [(hkeys k rfl).2 hw] at hv; cases hv
      | some w => exact congrArg some (ih k v w rfl hv hw rfl)

/-- Of all arrangements of an ordered value it is itself the only ordered one. -/
theorem Rearranged.eq_of_ordered {v w : Json} (h : v.Rearranged w) (hv : v.Ordered)
    (hw : w.Ordered) : v = w := by
  rw [← hv.sorted_eq, h.sorted_eq, hw.sorted_eq]

theorem Ordered.rearranged_self {v : Json} (h : v.Ordered) : v.Rearranged v := by
  induction h with
  | scalar h => exact .scalar h
  | array _ ih =>
    refine .array rfl fun i v w hv hw => ?_
    cases hv.symm.trans hw
    exact ih v (List.mem_of_getElem? hv)
  | object hk _ ih =>
    have hkeys := nodup_of_ascending hk
    refine .object hkeys hkeys (fun k _ => Iff.rfl) fun k v w _ hv hw => ?_
    cases hv.symm.trans hw
    exact ih (k, v) (mem_of_lookup hv)

/-- The members of an object, the last one first. -/
def backward : Json → Json
  | .object members => .object members.reverse
  | v => v

theorem Ordered.rearranged_backward {v : Json} (h : v.Ordered) : v.backward.Rearranged v := by
  cases h with
  | @object members hk h =>
    have hkeys := nodup_of_ascending hk
    have hlookup (k : String) : members.reverse.lookup k = members.lookup k :=
      lookup_eq_of_perm members.reverse_perm (by simpa [keysOf] using hkeys) k
    refine .object (by simpa [keysOf] using hkeys) hkeys (fun k _ => by rw [hlookup]) ?_
    intro k v w _ hv hw
    cases ((hlookup k).symm.trans hv).symm.trans hw
    exact (h (k, v) (mem_of_lookup hw)).rearranged_self
  | array h => exact (Ordered.array h).rearranged_self
  | scalar h =>
    cases v with
    | array items => simp [depth] at h
    | object members => simp [depth] at h
    | _ => exact .scalar rfl

theorem Rearranged.plain {v w : Json} (h : v.Rearranged w) (hw : w.Plain) : v.Plain := by
  unfold Rearranged at h
  generalize hp : Document.Place.other = p at h
  induction h with
  | scalar => exact hw
  | @array _ vs ws hlength _ ih =>
    subst hp
    cases hw with
    | array hws =>
      refine .array fun v hv => ?_
      obtain ⟨i, hi, rfl⟩ := List.getElem_of_mem hv
      have hwi : i < ws.length := hlength ▸ hi
      exact ih i _ _ (List.getElem?_eq_getElem hi) (List.getElem?_eq_getElem hwi)
        (hws _ (List.getElem_mem hwi)) rfl
  | @object _ ms ns hms hns hkeys _ ih =>
    subst hp
    cases hw with
    | object hws =>
      refine .object fun m hm => ?_
      have hv := (lookup_eq_some_iff_mem hms m.1 m.2).2 hm
      cases hw : ns.lookup m.1 with
      | none => rw [(hkeys m.1 rfl).2 hw] at hv; cases hv
      | some w => exact ih m.1 _ w rfl hv hw (hws _ (mem_of_lookup hw)) rfl

end Json

open Json

/-- A circuit's text on one line is the text of its value, and every object in it, at every
depth, has its keys in ascending order of their bytes. Of all the orders in which the members of
the value could be written, those that ascend throughout give this text, and no others. -/
theorem Circuit.text_ascending (c : Circuit) :
    c.text false = c.value.compact ∧
      Tree.ofText (c.text false) = (c.value.tree, true) ∧ c.value.tree.keysAscend ∧
      ∀ v : Json, v.Rearranged c.value →
        v.sorted.tree.keysAscend ∧ v.sorted.compact = c.text false ∧
          (v.compact = c.text false ↔ v.tree.keysAscend) := by
  have hordered : c.value.Ordered := c.value_eq ▸ c.document.json_ordered
  have hplain : c.value.Plain := c.value_eq ▸ c.document.json_plain
  have htext : c.text false = c.value.compact := by
    rw [c.value_eq]
    rfl
  have hscan : Tree.ofText (c.text false) = (c.value.tree, true) := by
    rw [htext]
    exact hplain.ofText_text false
  have hascend := (keysAscend_tree_iff c.value).2 hordered
  refine ⟨htext, hscan, hascend, fun v hv => ?_⟩
  have hsorted : v.sorted = c.value := hv.sorted_eq.trans hordered.sorted_eq
  refine ⟨hsorted ▸ hascend, hsorted ▸ htext.symm, fun h => ?_, fun h => ?_⟩
  · have hv' : Tree.ofText v.compact = (v.tree, true) := (hv.plain hplain).ofText_text false
    rw [h, hscan] at hv'
    have htree : c.value.tree = v.tree := congrArg Prod.fst hv'
    rwa [← htree]
  · rw [hv.eq_of_ordered ((keysAscend_tree_iff v).1 h) hordered, htext]

/-- A circuit with a name, and in it a box under a condition and in a group, with another box
under a condition inside. -/
def Circuit.namedCorrection : Circuit :=
  (Call.setName "fix").leaves
    ((Call.add ⟨.box ⟨0⟩ .guardedFlip, [.ofIndex 0, .ofIndex 1], [.ofIndex 0],
      some (.ifBit (.ofIndex 1)), some "flips"⟩).leaves
      ((Call.declareBitRegister "c" 2).leaves (.withQubits 2)))

/-- With the members of its outermost object in reverse the value has another text, until it is
sorted. -/
theorem Circuit.text_ascending_namedCorrection :
    Circuit.namedCorrection.commands.length = 1 ∧
      Circuit.namedCorrection.value.backward.Rearranged Circuit.namedCorrection.value ∧
      Circuit.namedCorrection.value.backward.compact ≠ Circuit.namedCorrection.text false ∧
      Circuit.namedCorrection.value.backward.sorted.compact =
        Circuit.namedCorrection.text false := by
  have hordered : Circuit.namedCorrection.value.Ordered :=
    Circuit.namedCorrection.value_eq ▸ Circuit.namedCorrection.document.json_ordered
  have hback := hordered.rearranged_backward
  obtain ⟨-, -, -, harranged⟩ := Circuit.namedCorrection.text_ascending
  obtain ⟨-, hsorted, hcompact⟩ := harranged _ hback
  refine ⟨rfl, hback, fun h => ?_, hsorted⟩
  have hdescend : Circuit.namedCorrection.value.backward.tree.keysAscend = false := by
    rw [Circuit.value_eq]
    decide +kernel
  rw [hcompact.1 h] at hdescend
  cases hdescend

end QuantumCircuit
