import QuantumCircuit.Proofs.KeyOrder
import QuantumCircuit.Proofs.Nesting

/-! Texts from which a value can be read. A strict reading takes nothing from a piece of the text
that a skimming one would refuse, so where it succeeds the tree of the text is that of a value
`w`, with the members of `w` in the order of the text. The value that is read is `w` with its
keys in ascending order. -/

namespace QuantumCircuit.Json

/-! ### Lexemes -/

/-- What a strict reading takes can be passed over as well. -/
def Lexeme.Sound {α : Type} (l : Lexeme α) : Prop := ∀ ⦃a : α⦄, l.strict = .ok a → l = .whole a

theorem Lexeme.Sound.broken {α : Type} (strict skim : Failure) :
    (Lexeme.broken (α := α) strict skim).Sound := by
  intro a ha
  cases ha

namespace Literal

/-- Characters can only be told where the literal ends. -/
theorem exists_of_chars {ending : Except Failure (List Char)} {fs : List Fragment}
    {cs : List Char} (h : chars ending fs = .ok cs) : ∃ rest, ending = .ok rest := by
  cases ending with
  | ok rest => exact ⟨rest, rfl⟩
  | error f =>
    exfalso
    fun_induction chars (.error f) fs generalizing cs
    case case2 ih | case4 ih | case8 ih =>
      obtain ⟨cs, hcs, -⟩ := map_eq_ok_iff.1 h
      exact ih hcs
    all_goals cases h

theorem scan_sound (cs : List Char) : (scan cs).1.Sound := by
  intro s hs
  rw [scan] at hs ⊢
  dsimp only at hs ⊢
  obtain ⟨word, hword, rfl⟩ := map_eq_ok_iff.1 hs
  obtain ⟨rest, hrest⟩ := exists_of_chars hword
  rw [hword, hrest]
  rfl

end Literal

namespace Numeral

theorem complete_sound (n : Numeral) : (complete n).Sound := by
  intro m hm
  unfold complete at hm ⊢
  dsimp only at hm
  split_ifs at hm with h
  cases hm
  rw [if_pos h]
  rfl

theorem noDigit_sound (cs : List Char) : (noDigit cs).1.Sound := by
  unfold noDigit
  dsimp only
  split_ifs
  · exact .broken _ _
  · exact .broken _ _

theorem scanExponent_sound (negative : Bool) (whole fraction : List Char) (down : Bool)
    (cs : List Char) : (scanExponent negative whole fraction down cs).1.Sound := by
  unfold scanExponent
  split_ifs
  · exact noDigit_sound cs
  · exact complete_sound _

theorem scanTail_sound (negative : Bool) (whole fraction cs : List Char) :
    (scanTail negative whole fraction cs).1.Sound := by
  fun_cases scanTail negative whole fraction cs
  case case1 => exact complete_sound _
  case case5 => exact complete_sound _
  all_goals exact scanExponent_sound ..

theorem scanFraction_sound (negative : Bool) (whole cs : List Char) :
    (scanFraction negative whole cs).1.Sound := by
  fun_cases scanFraction negative whole cs
  case case1 => exact noDigit_sound _
  all_goals exact scanTail_sound ..

theorem scanWhole_sound (negative : Bool) (cs : List Char) :
    (scanWhole negative cs).1.Sound := by
  fun_cases scanWhole negative cs
  case case1 => exact .broken _ _
  case case2 => exact scanFraction_sound ..
  case case4 => exact scanFraction_sound ..
  all_goals exact .broken _ _

theorem scan_sound (cs : List Char) : (scan cs).1.Sound := by
  fun_cases scan cs <;> exact scanWhole_sound ..

end Numeral

/-! ### Trees -/

mutual

/-- All lexemes of the tree are sound. -/
def Tree.Sound : Tree → Prop
  | .number n => n.Sound
  | .string s => s.Sound
  | .array items => items.Sound
  | .object members => members.Sound
  | _ => True

def Items.Sound : Items → Prop
  | .done _ => True
  | .item value rest => value.Sound ∧ rest.Sound

def Members.Sound : Members → Prop
  | .done _ => True
  | .member key value rest => key.Sound ∧ value.Sound ∧ rest.Sound

end

theorem scanWord_sound {whole : Tree} (h : whole.Sound) (letters cs : List Char) :
    (scanWord whole letters cs).1.Sound := by
  fun_induction scanWord whole letters cs with
  | case1 => exact h
  | case2 => exact trivial
  | case3 l ls c cs hc ih => exact ih
  | case4 => exact trivial

/-- What is scanned with that much fuel is sound. -/
structure ScansSound (fuel : Nat) : Prop where
  value (cs : List Char) : (scanValue fuel cs).1.Sound
  items (cs : List Char) : (scanItems fuel cs).1.Sound
  item (cs : List Char) : (scanItem fuel cs).1.Sound
  moreItems (cs : List Char) : (scanMoreItems fuel cs).1.Sound
  members (cs : List Char) : (scanMembers fuel cs).1.Sound
  member (cs : List Char) : (scanMember fuel cs).1.Sound
  moreMembers (cs : List Char) : (scanMoreMembers fuel cs).1.Sound

section Step

variable {fuel : Nat} (h : ScansSound fuel) (cs : List Char)

include h

theorem ScansSound.scanValue_succ : (scanValue (fuel + 1) cs).1.Sound := by
  rw [scanValue]
  split
  · trivial
  · split_ifs
    · exact Literal.scan_sound _
    · exact h.items _
    · exact h.members _
    · apply scanWord_sound; trivial
    · apply scanWord_sound; trivial
    · apply scanWord_sound; trivial
    · exact Numeral.scan_sound _
    · trivial

theorem ScansSound.scanItems_succ : (scanItems (fuel + 1) cs).1.Sound := by
  rw [scanItems]
  split
  · trivial
  · split_ifs
    · trivial
    · exact h.item _

theorem ScansSound.scanItem_succ : (scanItem (fuel + 1) cs).1.Sound := by
  have hvalue := h.value cs
  rw [scanItem]
  split
  next value heq =>
    rw [heq] at hvalue
    exact ⟨hvalue, trivial⟩
  next value rest heq =>
    rw [heq] at hvalue
    exact ⟨hvalue, h.moreItems rest⟩

theorem ScansSound.scanMoreItems_succ : (scanMoreItems (fuel + 1) cs).1.Sound := by
  rw [scanMoreItems]
  split
  · trivial
  · split_ifs
    · trivial
    · split
      · trivial
      · split_ifs
        · trivial
        · exact h.item _
    · trivial

theorem ScansSound.scanMembers_succ : (scanMembers (fuel + 1) cs).1.Sound := by
  rw [scanMembers]
  split
  · trivial
  · split_ifs
    · trivial
    · exact h.member _
    · trivial

theorem ScansSound.scanMember_succ : (scanMember (fuel + 1) cs).1.Sound := by
  have hkey := Literal.scan_sound cs
  rw [scanMember]
  dsimp only
  split
  · exact ⟨hkey, trivial, trivial⟩
  · split
    · exact ⟨hkey, trivial, trivial⟩
    next c rest _ =>
      split_ifs
      · have hvalue := h.value rest
        split
        next value heq =>
          rw [heq] at hvalue
          exact ⟨hkey, hvalue, trivial⟩
        next value rest heq =>
          rw [heq] at hvalue
          exact ⟨hkey, hvalue, h.moreMembers rest⟩
      · exact ⟨hkey, trivial, trivial⟩

theorem ScansSound.scanMoreMembers_succ : (scanMoreMembers (fuel + 1) cs).1.Sound := by
  rw [scanMoreMembers]
  split
  · trivial
  · split_ifs
    · trivial
    · split
      · trivial
      · split_ifs
        · exact h.member _
        · trivial
    · trivial

end Step

theorem scansSound (fuel : Nat) : ScansSound fuel := by
  induction fuel with
  | zero => constructor <;> intro cs <;> exact trivial
  | succ fuel ih =>
    exact ⟨ih.scanValue_succ, ih.scanItems_succ, ih.scanItem_succ, ih.scanMoreItems_succ,
      ih.scanMembers_succ, ih.scanMember_succ, ih.scanMoreMembers_succ⟩

theorem Tree.ofText_sound (text : String) : (Tree.ofText text).1.Sound := by
  rw [Tree.ofText, Tree.ofChars]
  exact (scansSound _).value text.toList

/-! ### Repeated keys -/

/-- The keys of the members, as far as they can be told. -/
def Members.keys : Members → List String
  | .done _ => []
  | .member key _ rest => key.strict.toOption.toList ++ rest.keys

mutual

/-- No object in the tree has a key twice. -/
def Tree.keysOnce : Tree → Bool
  | .array items => items.keysOnce
  | .object members => decide members.keys.Nodup && members.keysOnce
  | _ => true

def Items.keysOnce : Items → Bool
  | .done _ => true
  | .item value rest => value.keysOnce && rest.keysOnce

def Members.keysOnce : Members → Bool
  | .done _ => true
  | .member _ value rest => value.keysOnce && rest.keysOnce

end

/-- No object in the value has a key twice. -/
inductive KeysOnce : Json → Prop
  | scalar {v : Json} (h : v.depth = 0) : KeysOnce v
  | array {items : List Json} (h : ∀ v ∈ items, KeysOnce v) : KeysOnce (.array items)
  | object {members : List (String × Json)} (hk : (keysOf members).Nodup)
      (h : ∀ m ∈ members, KeysOnce m.2) : KeysOnce (.object members)

theorem keys_treeMembers (ms : List (String × Json)) : (treeMembers ms).keys = keysOf ms := by
  induction ms with
  | nil => rfl
  | cons m ms ih =>
    rw [treeMembers, Members.keys, ih]
    rfl

/-! ### Values -/

mutual

/-- A tree from which a value can be read is the tree of a value. -/
theorem Tree.exists_of_value : ∀ (t : Tree) {room : Nat} {v : Json}, t.Sound → t.keysOnce →
    t.value room = .ok v → ∃ w : Json, t = w.tree ∧ w.KeysOnce ∧ w.depth ≤ room ∧ v = w.sorted
  | .absent f, room, v, _, _, h => by rw [Tree.value] at h; cases h
  | .misspelt f, room, v, _, _, h => by rw [Tree.value] at h; cases h
  | .null, room, v, _, _, h => by
    rw [Tree.value] at h
    cases h
    exact ⟨.null, rfl, .scalar rfl, Nat.zero_le _, rfl⟩
  | .bool b, room, v, _, _, h => by
    rw [Tree.value] at h
    cases h
    exact ⟨.bool b, rfl, .scalar rfl, Nat.zero_le _, rfl⟩
  | .number n, room, v, hs, _, h => by
    rw [Tree.value] at h
    obtain ⟨m, hm, rfl⟩ := map_eq_ok_iff.1 h
    exact ⟨.number m, by rw [hs hm, tree], .scalar rfl, Nat.zero_le _, rfl⟩
  | .string s, room, v, hs, _, h => by
    rw [Tree.value] at h
    obtain ⟨m, hm, rfl⟩ := map_eq_ok_iff.1 h
    exact ⟨.string m, by rw [hs hm, tree], .scalar rfl, Nat.zero_le _, rfl⟩
  | .array items, 0, v, _, _, h => by rw [Tree.value] at h; cases h
  | .array items, room + 1, v, hs, hk, h => by
    rw [Tree.value] at h
    obtain ⟨vs, hvs, rfl⟩ := map_eq_ok_iff.1 h
    obtain ⟨ws, rfl, honce, hdepth, rfl⟩ := items.exists_of_values hs hk hvs
    exact ⟨.array ws, by rw [tree], .array honce, depth_array_le_iff.2 hdepth, by rw [sorted]⟩
  | .object members, 0, v, _, _, h => by rw [Tree.value] at h; cases h
  | .object members, room + 1, v, hs, hk, h => by
    rw [Tree.value] at h
    obtain ⟨ms, hms, rfl⟩ := map_eq_ok_iff.1 h
    rw [Tree.keysOnce, Bool.and_eq_true, decide_eq_true_eq] at hk
    obtain ⟨ws, rfl, honce, hdepth, rfl⟩ := members.exists_of_values hs hk.2 hms
    rw [keys_treeMembers] at hk
    exact ⟨.object ws, by rw [tree], .object hk.1 honce, depth_object_le_iff.2 hdepth,
      by rw [sorted]⟩

theorem Items.exists_of_values : ∀ (items : Items) {room : Nat} {vs : List Json}, items.Sound →
    items.keysOnce → items.values room = .ok vs → ∃ ws : List Json, items = treeItems ws ∧
      (∀ w ∈ ws, w.KeysOnce) ∧ (∀ w ∈ ws, w.depth ≤ room) ∧ vs = sortedItems ws
  | .done .closed, room, vs, _, _, h => by
    rw [Items.values] at h
    cases h
    exact ⟨[], by rw [treeItems], by simp, by simp, by rw [sortedItems]⟩
  | .done (.fails f c), room, vs, _, _, h => by rw [Items.values] at h; cases h
  | .item value rest, room, vs, hs, hk, h => by
    rw [Items.values] at h
    obtain ⟨v, hv, h⟩ := bind_eq_ok_iff.1 h
    obtain ⟨vs, hvs, h⟩ := bind_eq_ok_iff.1 h
    cases h
    rw [Items.keysOnce, Bool.and_eq_true] at hk
    obtain ⟨w, rfl, honce, hdepth, rfl⟩ := value.exists_of_value hs.1 hk.1 hv
    obtain ⟨ws, rfl, honces, hdepths, rfl⟩ := rest.exists_of_values hs.2 hk.2 hvs
    exact ⟨w :: ws, by rw [treeItems], List.forall_mem_cons.2 ⟨honce, honces⟩,
      List.forall_mem_cons.2 ⟨hdepth, hdepths⟩, by rw [sortedItems]⟩

theorem Members.exists_of_values : ∀ (members : Members) {room : Nat}
    {ms : List (String × Json)}, members.Sound → members.keysOnce →
    members.values room = .ok ms → ∃ ws : List (String × Json), members = treeMembers ws ∧
      (∀ w ∈ ws, w.2.KeysOnce) ∧ (∀ w ∈ ws, w.2.depth ≤ room) ∧ ms = sortedMembers ws
  | .done .closed, room, ms, _, _, h => by
    rw [Members.values] at h
    cases h
    exact ⟨[], by rw [treeMembers], by simp, by simp, by rw [sortedMembers]⟩
  | .done (.fails f c), room, ms, _, _, h => by rw [Members.values] at h; cases h
  | .member key value rest, room, ms, hs, hk, h => by
    rw [Members.values] at h
    obtain ⟨k, hkey, h⟩ := bind_eq_ok_iff.1 h
    obtain ⟨v, hv, h⟩ := bind_eq_ok_iff.1 h
    obtain ⟨vs, hvs, h⟩ := bind_eq_ok_iff.1 h
    cases h
    rw [Members.keysOnce, Bool.and_eq_true] at hk
    obtain ⟨w, rfl, honce, hdepth, rfl⟩ := value.exists_of_value hs.2.1 hk.1 hv
    obtain ⟨ws, rfl, honces, hdepths, rfl⟩ := rest.exists_of_values hs.2.2 hk.2 hvs
    exact ⟨(k, w) :: ws, by rw [treeMembers, hs.1 hkey], List.forall_mem_cons.2 ⟨honce, honces⟩,
      List.forall_mem_cons.2 ⟨hdepth, hdepths⟩, by rw [sortedMembers]⟩

end

theorem readText_eq_ok_iff {α : Type} {read : Tree → Except Failure α} {text : String} {a : α} :
    readText read text = .ok a ↔ ∃ t, Tree.ofText text = (t, true) ∧ read t = .ok a := by
  rw [readText]
  cases Tree.ofText text with
  | mk t ended => cases ended <;> simp [bind_eq_ok_iff, pure, Except.pure]

mutual

/-- A value can be read from its own tree, if it has room. -/
theorem value_tree : ∀ (v : Json) {room : Nat}, v.depth ≤ room → v.tree.value room = .ok v.sorted
  | .null, _, _ => by rw [tree, Tree.value, sorted_of_depth_zero rfl]
  | .bool _, _, _ => by rw [tree, Tree.value, sorted_of_depth_zero rfl]
  | .number _, _, _ => by rw [tree, Tree.value, sorted_of_depth_zero rfl]; rfl
  | .string _, _, _ => by rw [tree, Tree.value, sorted_of_depth_zero rfl]; rfl
  | .array vs, 0, h => by cases h
  | .array vs, room + 1, h => by
    rw [tree, Tree.value, values_treeItems vs (depth_array_le_iff.1 h), sorted]
    rfl
  | .object ms, 0, h => by cases h
  | .object ms, room + 1, h => by
    rw [tree, Tree.value, values_treeMembers ms (depth_object_le_iff.1 h), sorted]
    rfl

theorem values_treeItems : ∀ (vs : List Json) {room : Nat}, (∀ v ∈ vs, v.depth ≤ room) →
    (treeItems vs).values room = .ok (sortedItems vs)
  | [], _, _ => by rw [treeItems, Items.values, sortedItems]; rfl
  | v :: vs, _, h => by
    rw [List.forall_mem_cons] at h
    rw [treeItems, Items.values, value_tree v h.1, values_treeItems vs h.2, sortedItems]
    rfl

theorem values_treeMembers : ∀ (ms : List (String × Json)) {room : Nat},
    (∀ m ∈ ms, m.2.depth ≤ room) → (treeMembers ms).values room = .ok (sortedMembers ms)
  | [], _, _ => by rw [treeMembers, Members.values, sortedMembers]; rfl
  | (k, v) :: ms, _, h => by
    rw [List.forall_mem_cons] at h
    rw [treeMembers, Members.values, value_tree v h.1, values_treeMembers ms h.2, sortedMembers]
    rfl

end

/-- The text of a value is read as the value with its keys in ascending order. -/
theorem Plain.parse_text {v : Json} (h : v.Plain) (hdepth : v.depth ≤ depthLimit)
    (indented : Bool) : parse (v.text indented) = .ok v.sorted :=
  readText_eq_ok_iff.2 ⟨v.tree, h.ofText_text indented, value_tree v hdepth⟩

/-- A text that a value can be read from spells that value, but for the order of its keys. -/
theorem exists_of_parse {text : String} {v : Json} (hparse : parse text = .ok v)
    (honce : (Tree.ofText text).1.keysOnce) :
    ∃ w : Json, Tree.ofText text = (w.tree, true) ∧ w.KeysOnce ∧ w.depth ≤ depthLimit ∧
      v = w.sorted := by
  obtain ⟨t, ht, hv⟩ := readText_eq_ok_iff.1 hparse
  have hsound := Tree.ofText_sound text
  rw [ht] at honce hsound
  obtain ⟨w, rfl, hrest⟩ := t.exists_of_value hsound honce hv
  exact ⟨w, ht, hrest⟩

end QuantumCircuit.Json
