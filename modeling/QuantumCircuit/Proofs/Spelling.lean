import QuantumCircuit.Proofs.Lexemes

/-! Texts of JSON values can be read back. A layout is given by the blanks it puts in front
of items and after colons; the two layouts of a text are two choices of these blanks. For
any choice, scanning the spelling of a value takes exactly that spelling from the front of a
text and gives the tree of the value. The values are those whose numbers are plain natural
numbers of 64 bits. Nesting plays no part here: a tree has no limit on it. -/

namespace QuantumCircuit.Json

/-- A value whose numbers are natural numbers that fit in 64 bits. -/
inductive Plain : Json → Prop
  | null : Plain .null
  | bool (b : Bool) : Plain (.bool b)
  | natural {n : Nat} (h : n < UInt64.size) : Plain (.natural n)
  | string (s : String) : Plain (.string s)
  | array {items : List Json} (h : ∀ v ∈ items, Plain v) : Plain (.array items)
  | object {members : List (String × Json)} (h : ∀ m ∈ members, Plain m.2) :
    Plain (.object members)

/-! ### Layouts -/

/-- Where a layout puts blanks. -/
structure Spacing where
  /-- In front of an item or a closing bracket inside `level` open containers. -/
  newline : Nat → List Char
  /-- Between a colon and the value. -/
  space : List Char
  newline_blank : ∀ level, ∀ c ∈ newline level, isBlank c
  space_blank : ∀ c ∈ space, isBlank c

namespace Spacing

/-- No blanks at all. -/
def tight : Spacing := ⟨fun _ => [], [], by simp, by simp⟩

/-- A line for every item, indented by two spaces for each open container. -/
def lines : Spacing where
  newline level := '\n' :: List.replicate (2 * level) ' '
  space := [' ']
  newline_blank level c hc := by
    rcases List.mem_cons.1 hc with rfl | hc
    · decide
    · rw [List.eq_of_mem_replicate hc]
      decide
  space_blank c hc := by
    rw [List.mem_singleton.1 hc]
    decide

@[simp] theorem lines_space : lines.space = [' '] := rfl

end Spacing

/-- The spelling of a string. -/
def spellString (s : String) : List Char := '"' :: (s.toList.flatMap Literal.escape ++ ['"'])

mutual

/-- The spelling of a value inside `level` open containers. -/
def spell (S : Spacing) (level : Nat) : Json → List Char
  | .null => ['n', 'u', 'l', 'l']
  | .bool b => (boolText b).toList
  | .number n => n.text.toList
  | .string s => spellString s
  | .array [] => ['[', ']']
  | .array (v :: vs) =>
    '[' :: (S.newline (level + 1) ++ (v.spell S (level + 1) ++ spellItems S level vs))
  | .object [] => ['\x7b', '\x7d']
  | .object ((k, v) :: ms) =>
    '\x7b' :: (S.newline (level + 1) ++ (spellString k ++ ':' ::
      (S.space ++ (v.spell S (level + 1) ++ spellMembers S level ms))))

/-- Items that follow an item, and the end of the array. -/
def spellItems (S : Spacing) (level : Nat) : List Json → List Char
  | [] => S.newline level ++ [']']
  | v :: vs => ',' :: (S.newline (level + 1) ++ (v.spell S (level + 1) ++ spellItems S level vs))

/-- Members that follow a member, and the end of the object. -/
def spellMembers (S : Spacing) (level : Nat) : List (String × Json) → List Char
  | [] => S.newline level ++ ['\x7d']
  | (k, v) :: ms =>
    ',' :: (S.newline (level + 1) ++ (spellString k ++ ':' ::
      (S.space ++ (v.spell S (level + 1) ++ spellMembers S level ms))))

end

/-! ### The two layouts of a text -/

@[simp] theorem toList_write (s : String) : (Literal.write s).toList = spellString s := by
  simp [Literal.write, spellString]

theorem toList_text_ofNat (n : Nat) : (Numeral.ofNat n).text.toList = Nat.toDigits 10 n := by
  simp [Numeral.text, Numeral.ofNat]

@[simp] theorem toList_newline (level : Nat) :
    (newline level).toList = Spacing.lines.newline level := by
  simp [newline, Spacing.lines]

/-- The tokens put in front of `rest` spell the value. -/
def TokensSpell (S : Spacing) (level : Nat) (tokens : List String → List String) (v : Json) :
    Prop :=
  ∀ rest, (tokens rest).flatMap String.toList
    = v.spell S level ++ rest.flatMap String.toList

theorem itemTokens_spell {v : Json} {vs : List Json} {level : Nat}
    (h : ∀ w ∈ v :: vs, TokensSpell .tight (level + 1) w.tokens w) (rest : List String) :
    (itemTokens ("]" :: rest) (v :: vs)).flatMap String.toList
      = v.spell .tight (level + 1)
        ++ (spellItems .tight level vs ++ rest.flatMap String.toList) := by
  induction vs generalizing v with
  | nil => simp [itemTokens, h v List.mem_cons_self _, spellItems, Spacing.tight]
  | cons w ws ih =>
    have hws := ih fun x hx => h x (List.mem_cons_of_mem v hx)
    simp [itemTokens, h v List.mem_cons_self _, spellItems, hws, Spacing.tight]

theorem memberTokens_spell {m : String × Json} {ms : List (String × Json)} {level : Nat}
    (h : ∀ p ∈ m :: ms, TokensSpell .tight (level + 1) p.2.tokens p.2) (rest : List String) :
    (memberTokens ("\x7d" :: rest) (m :: ms)).flatMap String.toList
      = spellString m.1 ++ ':' :: (m.2.spell .tight (level + 1)
        ++ (spellMembers .tight level ms ++ rest.flatMap String.toList)) := by
  obtain ⟨k, v⟩ := m
  induction ms generalizing k v with
  | nil => simp [memberTokens, h _ List.mem_cons_self _, spellMembers, Spacing.tight]
  | cons p ms ih =>
    have hms := ih p.1 p.2 fun x hx => h x (List.mem_cons_of_mem _ hx)
    simp [memberTokens, h _ List.mem_cons_self _, spellMembers, hms, Spacing.tight]

theorem Plain.tokens_spell {v : Json} (hv : v.Plain) (level : Nat) :
    TokensSpell .tight level v.tokens v := by
  induction hv generalizing level with
  | null | bool | natural | string => intro rest; simp [tokens, Json.natural, spell]
  | @array items _ ih =>
    intro rest
    cases items with
    | nil => simp [tokens, itemTokens, spell]
    | cons v vs =>
      simp [tokens, itemTokens_spell (fun w hw => ih w hw (level + 1)), spell, Spacing.tight]
  | @object members _ ih =>
    intro rest
    cases members with
    | nil => simp [tokens, memberTokens, spell]
    | cons m ms =>
      simp [tokens, memberTokens_spell (fun p hp => ih p hp (level + 1)), spell, Spacing.tight]

theorem itemTokensAt_spell {v : Json} {vs : List Json} {level : Nat}
    (h : ∀ w ∈ v :: vs, TokensSpell .lines (level + 1) (tokensAt (level + 1) · w) w)
    (rest : List String) :
    (itemTokensAt (level + 1) (newline level :: "]" :: rest) (v :: vs)).flatMap String.toList
      = Spacing.lines.newline (level + 1) ++ (v.spell .lines (level + 1)
        ++ (spellItems .lines level vs ++ rest.flatMap String.toList)) := by
  induction vs generalizing v with
  | nil => simp [itemTokensAt, h v List.mem_cons_self _, spellItems]
  | cons w ws ih =>
    have hws := ih fun x hx => h x (List.mem_cons_of_mem v hx)
    simp [itemTokensAt, h v List.mem_cons_self _, spellItems, hws]

theorem memberTokensAt_spell {m : String × Json} {ms : List (String × Json)} {level : Nat}
    (h : ∀ p ∈ m :: ms, TokensSpell .lines (level + 1) (tokensAt (level + 1) · p.2) p.2)
    (rest : List String) :
    (memberTokensAt (level + 1) (newline level :: "\x7d" :: rest) (m :: ms)).flatMap String.toList
      = Spacing.lines.newline (level + 1) ++ (spellString m.1 ++ ':' :: (Spacing.lines.space
        ++ (m.2.spell .lines (level + 1)
          ++ (spellMembers .lines level ms ++ rest.flatMap String.toList)))) := by
  obtain ⟨k, v⟩ := m
  induction ms generalizing k v with
  | nil => simp [memberTokensAt, h _ List.mem_cons_self _, spellMembers]
  | cons p ms ih =>
    have hms := ih p.1 p.2 fun x hx => h x (List.mem_cons_of_mem _ hx)
    simp [memberTokensAt, h _ List.mem_cons_self _, spellMembers, hms]

theorem Plain.tokensAt_spell {v : Json} (hv : v.Plain) (level : Nat) :
    TokensSpell .lines level (tokensAt level · v) v := by
  induction hv generalizing level with
  | null | bool | natural | string => intro rest; simp [tokensAt, Json.natural, spell]
  | @array items _ ih =>
    intro rest
    cases items with
    | nil => simp [tokensAt, spell]
    | cons v vs => simp [tokensAt, itemTokensAt_spell (fun w hw => ih w hw (level + 1)), spell]
  | @object members _ ih =>
    intro rest
    cases members with
    | nil => simp [tokensAt, spell]
    | cons m ms => simp [tokensAt, memberTokensAt_spell (fun p hp => ih p hp (level + 1)), spell]

/-- The spacing of a text that is indented or not. -/
def Spacing.of (indented : Bool) : Spacing := if indented then .lines else .tight

theorem Plain.toList_text {v : Json} (hv : v.Plain) (indented : Bool) :
    (v.text indented).toList = v.spell (.of indented) 0 := by
  cases indented
  · simpa [text, compact, String.toList_join, Spacing.of] using hv.tokens_spell 0 []
  · simpa [text, pretty, String.toList_join, Spacing.of] using hv.tokensAt_spell 0 []

/-! ### Scanning -/

theorem skipBlanks_append {blanks : List Char} (h : ∀ c ∈ blanks, isBlank c) (cs : List Char) :
    skipBlanks (blanks ++ cs) = skipBlanks cs :=
  List.dropWhile_append_of_pos h

theorem skipBlanks_of_not_blank {c : Char} (h : isBlank c = false) (cs : List Char) :
    skipBlanks (c :: cs) = c :: cs := by
  simp [skipBlanks, h]

theorem scanValue_skip {blanks : List Char} (h : ∀ c ∈ blanks, isBlank c) (fuel : Nat)
    (cs : List Char) : scanValue fuel (blanks ++ cs) = scanValue fuel cs := by
  cases fuel with
  | zero => rfl
  | succ fuel => rw [scanValue, scanValue, skipBlanks_append h]

theorem not_isBlank_of_isDigit {c : Char} (h : c.isDigit) : isBlank c = false := by
  rw [Bool.eq_false_iff]
  intro hb
  simp only [isBlank, Bool.or_eq_true, beq_iff_eq] at hb
  rcases hb with ((rfl | rfl) | rfl) | rfl <;> simp at h

/-- The first character of a spelling tells that a value starts here. -/
theorem Plain.spell_head {v : Json} (hv : v.Plain) (S : Spacing) (level : Nat) :
    ∃ c cs, v.spell S level = c :: cs ∧ isBlank c = false ∧ c ≠ ']' := by
  cases hv with
  | null | string => exact ⟨_, _, rfl, by decide, by decide⟩
  | bool b => cases b <;> exact ⟨_, _, rfl, by decide, by decide⟩
  | @natural n =>
    obtain ⟨d, ds, hds, hd, -⟩ := Numeral.toDigits_eq_cons n
    refine ⟨d, ds, by rw [Json.natural, spell, toList_text_ofNat, hds], ?_, ?_⟩
    · exact not_isBlank_of_isDigit hd
    · rintro rfl
      simp at hd
  | @array items => cases items <;> exact ⟨_, _, rfl, by decide, by decide⟩
  | @object members => cases members <;> exact ⟨_, _, rfl, by decide, by decide⟩

/-- Scanning takes exactly `cs` from the front of a text, for the value `v`. Each character
pays for three calls. -/
def Scans (v : Json) (cs : List Char) : Prop :=
  ∀ (fuel : Nat) (rest : List Char), 3 * cs.length + 1 ≤ fuel → Stops rest →
    scanValue fuel (cs ++ rest) = (v.tree, some rest)

theorem stops_nil : Stops [] := by simp [Stops]

theorem stops_append {blanks rest : List Char} (hb : ∀ c ∈ blanks, isBlank c)
    (h : Stops rest) : Stops (blanks ++ rest) := by
  cases blanks with
  | nil => exact h
  | cons b bs =>
    intro c hc
    obtain rfl : b = c := by simpa using hc
    have hblank := hb b List.mem_cons_self
    refine ⟨?_, ?_, ?_, ?_⟩
    · by_contra hd
      rw [not_isBlank_of_isDigit (by simpa using hd)] at hblank
      exact absurd hblank (by decide)
    all_goals rintro rfl; exact absurd hblank (by decide)

theorem stops_spellItems (S : Spacing) (level : Nat) (vs : List Json) (rest : List Char) :
    Stops (spellItems S level vs ++ rest) := by
  cases vs with
  | nil =>
    rw [spellItems, List.append_assoc]
    exact stops_append (S.newline_blank level) (by simp [Stops])
  | cons v vs => simp [spellItems, Stops]

theorem stops_spellMembers (S : Spacing) (level : Nat) (ms : List (String × Json))
    (rest : List Char) : Stops (spellMembers S level ms ++ rest) := by
  cases ms with
  | nil =>
    rw [spellMembers, List.append_assoc]
    exact stops_append (S.newline_blank level) (by simp [Stops])
  | cons m ms => simp [spellMembers, Stops]

section Containers

variable {S : Spacing} {level : Nat}

/-- Items that follow an item are scanned up to the end of the array. -/
def ScansItems (S : Spacing) (level : Nat) (vs : List Json) : Prop :=
  ∀ (fuel : Nat) (rest : List Char), 3 * (spellItems S level vs).length + 1 ≤ fuel →
    scanMoreItems fuel (spellItems S level vs ++ rest) = (treeItems vs, some rest)

/-- Members that follow a member are scanned up to the end of the object. -/
def ScansMembers (S : Spacing) (level : Nat) (ms : List (String × Json)) : Prop :=
  ∀ (fuel : Nat) (rest : List Char), 3 * (spellMembers S level ms).length + 1 ≤ fuel →
    scanMoreMembers fuel (spellMembers S level ms ++ rest) = (treeMembers ms, some rest)

theorem scanItem_spell {v : Json} {vs : List Json} (hv : Scans v (v.spell S (level + 1)))
    (hvs : ScansItems S level vs) (fuel : Nat) (rest : List Char)
    (hfuel : 3 * ((v.spell S (level + 1)).length + (spellItems S level vs).length) + 2 ≤ fuel) :
    scanItem fuel (v.spell S (level + 1) ++ (spellItems S level vs ++ rest))
      = (treeItems (v :: vs), some rest) := by
  obtain ⟨fuel, rfl⟩ := Nat.exists_eq_add_of_le' (show 1 ≤ fuel by omega)
  have hvalue := hv fuel _ (by omega) (stops_spellItems S level vs rest)
  have hmore := hvs fuel rest (by omega)
  rw [scanItem, hvalue]
  simp [hmore, treeItems]

theorem scanMember_spell {k : String} {v : Json} {ms : List (String × Json)}
    (hv : Scans v (v.spell S (level + 1))) (hms : ScansMembers S level ms) (fuel : Nat)
    (rest : List Char)
    (hfuel : 3 * ((v.spell S (level + 1)).length + (spellMembers S level ms).length) + 2 ≤ fuel) :
    scanMember fuel (k.toList.flatMap Literal.escape ++ '"' :: ':' ::
        (S.space ++ (v.spell S (level + 1) ++ (spellMembers S level ms ++ rest))))
      = (treeMembers ((k, v) :: ms), some rest) := by
  obtain ⟨fuel, rfl⟩ := Nat.exists_eq_add_of_le' (show 1 ≤ fuel by omega)
  have hvalue := hv fuel _ (by omega) (stops_spellMembers S level ms rest)
  have hmore := hms fuel rest (by omega)
  rw [scanMember, Literal.scan_write]
  simp [Lexeme.whole, skipBlanks_of_not_blank (show isBlank ':' = false by decide),
    scanValue_skip S.space_blank, hvalue, hmore, treeMembers]

theorem scanMoreItems_spell {vs : List Json}
    (h : ∀ v ∈ vs, v.Plain ∧ Scans v (v.spell S (level + 1))) : ScansItems S level vs := by
  induction vs with
  | nil =>
    intro fuel rest hfuel
    obtain ⟨fuel, rfl⟩ := Nat.exists_eq_add_of_le' (Nat.le_of_add_left_le hfuel)
    rw [spellItems, List.append_assoc, scanMoreItems, skipBlanks_append (S.newline_blank level)]
    rfl
  | cons v vs ih =>
    intro fuel rest hfuel
    rw [List.forall_mem_cons] at h
    obtain ⟨c, cs, hspell, hblank, hc⟩ := h.1.1.spell_head S (level + 1)
    simp only [spellItems, List.length_cons, List.length_append] at hfuel
    obtain ⟨fuel, rfl⟩ := Nat.exists_eq_add_of_le' (show 1 ≤ fuel by omega)
    have hitem := scanItem_spell h.1.2 (ih h.2) fuel rest (by omega)
    rw [hspell, List.cons_append] at hitem
    simp [spellItems, scanMoreItems, skipBlanks_of_not_blank (show isBlank ',' = false by decide),
      skipBlanks_append (S.newline_blank _), hspell, skipBlanks_of_not_blank hblank, hc, hitem]

theorem scanValue_array {items : List Json}
    (h : ∀ v ∈ items, v.Plain ∧ Scans v (v.spell S (level + 1))) :
    Scans (.array items) ((Json.array items).spell S level) := by
  intro fuel rest hfuel _
  cases items with
  | nil =>
    obtain ⟨fuel, rfl⟩ := Nat.exists_eq_add_of_le' (show 2 ≤ fuel by simp [spell] at hfuel; omega)
    simp [spell, scanValue, scanItems, skipBlanks, isBlank, tree, treeItems]
  | cons v vs =>
    rw [List.forall_mem_cons] at h
    obtain ⟨c, cs, hspell, hblank, hc⟩ := h.1.1.spell_head S (level + 1)
    simp only [spell, List.length_cons, List.length_append] at hfuel
    obtain ⟨fuel, rfl⟩ := Nat.exists_eq_add_of_le' (show 2 ≤ fuel by omega)
    have hitem := scanItem_spell h.1.2 (scanMoreItems_spell h.2) fuel rest (by omega)
    rw [hspell, List.cons_append] at hitem
    simp [spell, scanValue, skipBlanks_of_not_blank (show isBlank '[' = false by decide), scanItems,
      skipBlanks_append (S.newline_blank _), hspell, skipBlanks_of_not_blank hblank, hc, hitem,
      tree]

theorem scanMoreMembers_spell {ms : List (String × Json)}
    (h : ∀ m ∈ ms, Scans m.2 (m.2.spell S (level + 1))) : ScansMembers S level ms := by
  induction ms with
  | nil =>
    intro fuel rest hfuel
    obtain ⟨fuel, rfl⟩ := Nat.exists_eq_add_of_le' (Nat.le_of_add_left_le hfuel)
    rw [spellMembers, List.append_assoc, scanMoreMembers,
      skipBlanks_append (S.newline_blank level)]
    rfl
  | cons m ms ih =>
    intro fuel rest hfuel
    obtain ⟨k, v⟩ := m
    rw [List.forall_mem_cons] at h
    simp only [spellMembers, List.length_cons, List.length_append] at hfuel
    obtain ⟨fuel, rfl⟩ := Nat.exists_eq_add_of_le' (show 1 ≤ fuel by omega)
    have hmember := scanMember_spell (k := k) h.1 (ih h.2) fuel rest (by dsimp only; omega)
    simp [spellMembers, scanMoreMembers,
      skipBlanks_of_not_blank (show isBlank ',' = false by decide),
      skipBlanks_append (S.newline_blank _), spellString,
      skipBlanks_of_not_blank (show isBlank '"' = false by decide), hmember]

theorem scanValue_object {members : List (String × Json)}
    (h : ∀ m ∈ members, Scans m.2 (m.2.spell S (level + 1))) :
    Scans (.object members) ((Json.object members).spell S level) := by
  intro fuel rest hfuel _
  cases members with
  | nil =>
    obtain ⟨fuel, rfl⟩ := Nat.exists_eq_add_of_le' (show 2 ≤ fuel by simp [spell] at hfuel; omega)
    simp [spell, scanValue, scanMembers, skipBlanks, isBlank, tree, treeMembers]
  | cons m ms =>
    obtain ⟨k, v⟩ := m
    rw [List.forall_mem_cons] at h
    simp only [spell, List.length_cons, List.length_append] at hfuel
    obtain ⟨fuel, rfl⟩ := Nat.exists_eq_add_of_le' (show 2 ≤ fuel by omega)
    have hmember := scanMember_spell (k := k) h.1 (scanMoreMembers_spell h.2) fuel rest
      (by dsimp only; omega)
    simp [spell, scanValue, skipBlanks_of_not_blank (show isBlank '\x7b' = false by decide),
      scanMembers, skipBlanks_append (S.newline_blank _), spellString,
      skipBlanks_of_not_blank (show isBlank '"' = false by decide), hmember, tree]

end Containers

theorem scanValue_string (s : String) : Scans (.string s) (spellString s) := by
  intro fuel rest hfuel _
  obtain ⟨fuel, rfl⟩ := Nat.exists_eq_add_of_le' (Nat.le_of_add_left_le hfuel)
  rw [spellString, scanValue, List.cons_append,
    skipBlanks_of_not_blank (show isBlank '"' = false by decide)]
  simp [Literal.scan_write, Lexeme.whole, tree, Except.toOption]

theorem scanValue_natural {n : Nat} (hn : n < UInt64.size) :
    Scans (.natural n) (Nat.toDigits 10 n) := by
  intro fuel rest hfuel hrest
  obtain ⟨fuel, rfl⟩ := Nat.exists_eq_add_of_le' (Nat.le_of_add_left_le hfuel)
  have hscan := Numeral.scan_ofNat hn hrest
  obtain ⟨d, ds, hds, hd, -⟩ := Numeral.toDigits_eq_cons n
  rw [hds, List.cons_append] at hscan ⊢
  rw [scanValue, skipBlanks_of_not_blank (not_isBlank_of_isDigit hd)]
  have hne : ∀ c, c.isDigit = false → d ≠ c := by
    rintro c hc rfl
    rw [hd] at hc
    exact absurd hc (by decide)
  simp [hne '"' (by decide), hne '[' (by decide), hne '\x7b' (by decide), hne 'n' (by decide),
    hne 't' (by decide), hne 'f' (by decide), hd, hscan, Lexeme.whole, tree, Json.natural,
    Except.toOption]

/-- The spelling of a value is scanned as its tree, whatever follows it. -/
theorem Plain.scans {v : Json} (hv : v.Plain) (S : Spacing) (level : Nat) :
    Scans v (v.spell S level) := by
  induction hv generalizing level with
  | null =>
    intro fuel rest hfuel _
    obtain ⟨fuel, rfl⟩ := Nat.exists_eq_add_of_le' (Nat.le_of_add_left_le hfuel)
    rfl
  | bool b =>
    intro fuel rest hfuel _
    obtain ⟨fuel, rfl⟩ := Nat.exists_eq_add_of_le' (Nat.le_of_add_left_le hfuel)
    cases b <;> rfl
  | natural hn =>
    rw [Json.natural, spell, toList_text_ofNat]
    exact scanValue_natural hn
  | string s => exact scanValue_string s
  | array h ih => exact scanValue_array fun v hv => ⟨h v hv, ih v hv (level + 1)⟩
  | object _ ih => exact scanValue_object fun m hm => ih m hm (level + 1)

/-- A text of a value spells its tree, and nothing but blanks follows it. -/
theorem Plain.ofText_text_append {v : Json} (hv : v.Plain) (indented : Bool) (blanks : String)
    (hb : ∀ c ∈ blanks.toList, isBlank c) :
    Tree.ofText (v.text indented ++ blanks) = (v.tree, true) := by
  have hstops : Stops blanks.toList := by
    simpa using stops_append hb stops_nil
  have hscan := hv.scans (.of indented) 0
    (3 * (v.spell (.of indented) 0 ++ blanks.toList).length + 1) blanks.toList
    (by rw [List.length_append]; omega) hstops
  have hend : skipBlanks blanks.toList = [] := by
    have hskip := skipBlanks_append hb []
    rwa [List.append_nil] at hskip
  rw [Tree.ofText, String.toList_append, hv.toList_text, Tree.ofChars, hscan]
  simp [hend]

theorem Plain.ofText_text {v : Json} (hv : v.Plain) (indented : Bool) :
    Tree.ofText (v.text indented) = (v.tree, true) := by
  have htext := hv.ofText_text_append indented "" (by simp)
  rwa [String.append_empty] at htext

theorem getLast?_spellMembers (S : Spacing) (level : Nat) (ms : List (String × Json)) :
    (spellMembers S level ms).getLast? = some '\x7d' := by
  induction ms with
  | nil => simp [spellMembers]
  | cons m ms ih => simp [spellMembers, List.getLast?_append, List.getLast?_cons, ih]

/-- An object ends with its bracket, in either layout. -/
theorem getLast?_spell_object (S : Spacing) (level : Nat) (ms : List (String × Json)) :
    ((Json.object ms).spell S level).getLast? = some '\x7d' := by
  cases ms with
  | nil => rfl
  | cons m ms => simp [spell, List.getLast?_append, List.getLast?_cons, getLast?_spellMembers]

end QuantumCircuit.Json
