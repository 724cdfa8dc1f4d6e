import Mathlib.Data.List.Pairwise
import QuantumCircuit.Proofs.Labels
import QuantumCircuit.Qasm.Emission

/-! A message that is about a unit tells which one. It shows the label of the unit between words
that open it and words that close it. A text that begins with one set of opening words does not
begin with another, and no closing words are the end of others, so the label can be cut out,
whatever the register is called. Messages hold other messages, and tables say so: each table lists
words with what may follow them.

Closing words may name an operation, and then it matters that an operation is named by its type,
since a name with blanks in it could pass for a part of the label. The bits of a condition are shown
in a row. Each has its label there, but a comma in a name may look like the end of a unit, and
nothing is said of the row as a whole. -/

namespace QuantumCircuit

/-! ### What a refusal is about -/

def DocumentFault.unit? : DocumentFault → Option UnitId
  | .repeatedSource q | .repeatedTarget q | .targetNotSource q => some q.id
  | .noConditionalPayload | .noBoxPayload | .argumentCount _ _ _ => none

/-- The unit that a refusal is about, where it is about one. -/
def Error.unit? : Error → Option UnitId
  | .qubitNotFound q _ | .duplicateQubit q _ => some q.id
  | .bitNotFound b _ | .duplicateBit b _ => some b.id
  | .duplicateUnit u => some u
  | .invalidDocument fault => fault.unit?
  | _ => none

def Qasm.Fault.unit? : Qasm.Fault → Option UnitId
  | .notSingleIndex u => some u
  | _ => none

def Qasm.Refusal.unit? : Qasm.Refusal → Option UnitId
  | .unsupported fault => fault.unit?
  | .circuit cause => cause.unit?
  | .overflow _ => none

/-- The name of a type, where there is a name. -/
def NamesType (op : Option String) : Prop := ∀ name ∈ op, ∃ type : OpType, type.name = name

/-! ### Texts and what they are about -/

namespace Message

/-- Texts with the units that they are about, or with none. -/
abbrev About := String → Option UnitId → Prop

/-- A text is not about two things. -/
def Certain (R : About) : Prop := ∀ ⦃text : String⦄ ⦃u v⦄, R text u → R text v → u = v

/-- Texts that are about no unit, whatever they say. -/
def silent : About := fun _ u => u = none

/-- The label of a unit, and behind it one of the closing words. -/
def framed (closing : String → Prop) : About := fun text u =>
  ∃ v : UnitId, u = some v ∧ ∃ c, closing c ∧ text = v.label ++ c

/-- One of the words, and behind it what may follow that word. -/
def led (table : List (String × About)) : About := fun text u =>
  ∃ entry ∈ table, ∃ rest, text = entry.1 ++ rest ∧ entry.2 rest u

/-- No text begins with both words. -/
def apart (a b : String) : Bool := !a.toList.isPrefixOf b.toList && !b.toList.isPrefixOf a.toList

theorem apart_symm {a b : String} (h : apart a b) : apart b a := by
  simp only [apart, Bool.and_eq_true] at h ⊢
  exact h.symm

theorem append_ne_of_apart {a b : String} (h : apart a b) (r s : String) : a ++ r ≠ b ++ s := by
  intro he
  have hlist : b.toList ++ s.toList = a.toList ++ r.toList := by
    rw [← String.toList_append, ← he, String.toList_append]
  simp only [apart, Bool.and_eq_true, Bool.not_eq_true', ← Bool.not_eq_true,
    List.isPrefixOf_iff_prefix] at h
  rcases List.prefix_or_prefix_of_prefix ⟨r.toList, rfl⟩ ⟨s.toList, hlist⟩ with hab | hba
  · exact h.1 hab
  · exact h.2 hba

theorem silent_certain : Certain silent := fun _ _ _ hu hv => hu.trans hv.symm

/-- A table is read with certainty if its first words can be told apart. -/
theorem led_certain {table : List (String × About)}
    (hwords : (table.map Prod.fst).Pairwise fun a b => apart a b)
    (hentries : ∀ entry ∈ table, Certain entry.2) : Certain (led table) := by
  rintro text u v ⟨entry, hentry, rest, htext, hu⟩ ⟨entry', hentry', rest', htext', hv⟩
  -- the first word decides the entry, also where two entries are followed by the same texts
  have hsame : entry = entry' := by
    by_contra hne
    have : Std.Symm fun a b : String × About => apart a.1 b.1 = true := ⟨fun _ _ => apart_symm⟩
    have hapart := (List.pairwise_map.1 hwords).forall hentry hentry' hne
    exact append_ne_of_apart hapart rest rest' (htext.symm.trans htext')
  subst hsame
  have hrest : rest = rest' := (String.append_right_inj entry.1).1 (htext.symm.trans htext')
  subst hrest
  exact hentries entry hentry hu hv

/-- A label is read with certainty if no closing words are the end of others. -/
theorem framed_certain {closing : String → Prop}
    (h : ∀ a, closing a → ∀ b, closing b → a.toList <:+ b.toList → a = b) :
    Certain (framed closing) := by
  rintro text _ _ ⟨u, rfl, a, ha, htext⟩ ⟨v, rfl, b, hb, htext'⟩
  have heq : u.label ++ a = v.label ++ b := htext.symm.trans htext'
  have hlist : v.label.toList ++ b.toList = u.label.toList ++ a.toList := by
    rw [← String.toList_append, ← heq, String.toList_append]
  have hab : a = b := by
    rcases List.suffix_or_suffix_of_suffix ⟨_, rfl⟩ ⟨_, hlist⟩ with hab | hba
    · exact h a ha b hb hab
    · exact (h b hb a ha hba).symm
  subst hab
  rw [UnitId.label_injective ((String.append_left_inj a).1 heq)]

/-! ### Closing words -/

theorem blank_notMem_name (type : OpType) : ∀ c ∈ type.name.toList ++ [')'], c ≠ ' ' := by
  have hblank : ' ' ∉ type.name.toList ++ [')'] := by cases type <;> decide
  rintro _ hc rfl
  exact hblank hc

theorem toList_context_some (name : String) : (Error.context (some name)).toList =
    " (op:".toList ++ ' ' :: (name.toList ++ [')']) := by
  simp [Error.context]

theorem getLast?_context_some (r : List Char) (name : String) :
    (r ++ (Error.context (some name)).toList).getLast? = some ')' := by
  rw [List.getLast?_eq_some_iff]
  exact ⟨r ++ (" (op: " ++ name).toList, by simp [Error.context]⟩

/-- What is said of the operation can be cut off a text that does not end in a parenthesis. -/
theorem context_inj {op op' : Option String} (hop : NamesType op) (hop' : NamesType op')
    {r s : List Char} (hr : r.getLast? ≠ some ')') (hs : s.getLast? ≠ some ')')
    (h : r ++ (Error.context op).toList = s ++ (Error.context op').toList) : op = op' := by
  have hnone : ∀ t : List Char, t ++ (Error.context none).toList = t := List.append_nil
  cases op with
  | none =>
    cases op' with
    | none => rfl
    | some name' =>
      rw [hnone] at h
      exact absurd (h ▸ getLast?_context_some s name') hr
  | some name =>
    cases op' with
    | none =>
      rw [hnone] at h
      exact absurd (h ▸ getLast?_context_some r name) hs
    | some name' =>
      obtain ⟨type, rfl⟩ := hop name rfl
      obtain ⟨type', rfl⟩ := hop' name' rfl
      -- a name has no blank in it, so the last blank of both texts is the one before the name
      rw [toList_context_some, toList_context_some, ← List.append_assoc,
        ← List.append_assoc] at h
      obtain ⟨-, -, hname⟩ := run_inj_back (blank_notMem_name type) (blank_notMem_name type')
        (not_not.2 rfl) (not_not.2 rfl) h
      rw [String.toList_inj.1 (List.append_cancel_right hname)]

/-- The words, and behind them the operation, named by its type, or nothing. -/
def inOperation (words : String) : String → Prop := fun c =>
  ∃ op, NamesType op ∧ c = words ++ Error.context op

theorem framed_inOperation_certain {words : String} {x : Char}
    (hx : words.toList.getLast? = some x) (hne : x ≠ ')') :
    Certain (framed (inOperation words)) := by
  have hlast : ∀ t : List Char, (t ++ words.toList).getLast? ≠ some ')' := by
    intro t
    simpa [List.getLast?_append, hx] using hne
  apply framed_certain
  rintro _ ⟨op, hop, rfl⟩ _ ⟨op', hop', rfl⟩ ⟨t, ht⟩
  rw [String.toList_append, String.toList_append, ← List.append_assoc] at ht
  rw [context_inj hop hop' (hlast t) (hlast []) ht]

/-! ### Messages -/

/-- The first letters of the names of types. -/
def initials : List String := ["X", "Y", "Z", "H", "S", "T", "C", "M", "R"]

theorem exists_initial (type : OpType) : ∃ i ∈ initials, ∃ rest, type.name = i ++ rest := by
  cases type with
  | x => exact ⟨"X", by decide, "", rfl⟩
  | y => exact ⟨"Y", by decide, "", rfl⟩
  | z => exact ⟨"Z", by decide, "", rfl⟩
  | h => exact ⟨"H", by decide, "", rfl⟩
  | s => exact ⟨"S", by decide, "", rfl⟩
  | sdg => exact ⟨"S", by decide, "dg", rfl⟩
  | t => exact ⟨"T", by decide, "", rfl⟩
  | tdg => exact ⟨"T", by decide, "dg", rfl⟩
  | cx => exact ⟨"C", by decide, "X", rfl⟩
  | cy => exact ⟨"C", by decide, "Y", rfl⟩
  | cz => exact ⟨"C", by decide, "Z", rfl⟩
  | swap => exact ⟨"S", by decide, "WAP", rfl⟩
  | measure => exact ⟨"M", by decide, "easure", rfl⟩
  | reset => exact ⟨"R", by decide, "eset", rfl⟩
  | circBox => exact ⟨"C", by decide, "ircBox", rfl⟩
  | conditional => exact ⟨"C", by decide, "onditional", rfl⟩

/-- The messages about documents. -/
def documentTable : List (String × About) :=
  ("qubit ", framed (· ∈ [" appears twice as a permutation source",
    " appears twice as a permutation target", " is a permutation target but not a source"])) ::
  initials.map (·, silent)

/-- The messages about what has no form in a program. -/
def faultTable : List (String × About) :=
  ("unit ", framed (· = " has a multi-dimensional index")) ::
  (initials ++ ["implicit qubit permutation ", "register name '", "condition "]).map (·, silent)

/-- The messages about circuits. -/
def errorTable : List (String × About) :=
  [("Qubit ", framed (inOperation " not found in circuit")),
    ("Bit ", framed (inOperation " not found in circuit")),
    ("Unit ", framed (· = " is already declared in circuit")),
    ("Duplicate qubit ", framed (inOperation " in operation")),
    ("Duplicate bit ", framed (inOperation " in operation")),
    ("Invalid circuit document: ", led documentTable),
    ("Classical register '", silent), ("Operation '", silent), ("Invalid condition: ", silent),
    ("Cannot nest condition on already conditional operation '", silent),
    ("Unsupported operation: ", silent), ("JSON error: ", silent)]

/-- The messages about programs. -/
def refusalTable : List (String × About) :=
  [("Unsupported in OpenQASM 3 output: ", led faultTable), ("Circuit error: ", led errorTable),
    ("attempt to add ", silent)]

theorem documentTable_certain : Certain (led documentTable) := by
  apply led_certain
  · decide +kernel
  · rw [documentTable, List.forall_mem_cons, List.forall_mem_map]
    refine ⟨framed_certain ?_, fun _ _ => silent_certain⟩
    decide +kernel

theorem faultTable_certain : Certain (led faultTable) := by
  apply led_certain
  · decide +kernel
  · rw [faultTable, List.forall_mem_cons, List.forall_mem_map]
    exact ⟨framed_certain fun a ha b hb _ => ha.trans hb.symm, fun _ _ => silent_certain⟩

theorem errorTable_certain : ∀ entry ∈ errorTable, Certain entry.2 := by
  have hnotFound : Certain (framed (inOperation " not found in circuit")) :=
    framed_inOperation_certain (x := 't') (by decide +kernel) (by decide)
  have hduplicate : Certain (framed (inOperation " in operation")) :=
    framed_inOperation_certain (x := 'n') (by decide +kernel) (by decide)
  have hdeclared : Certain (framed (· = " is already declared in circuit")) :=
    framed_certain fun a ha b hb _ => ha.trans hb.symm
  simp only [errorTable, List.forall_mem_cons]
  exact ⟨hnotFound, hnotFound, hdeclared, hduplicate, hduplicate, documentTable_certain,
    silent_certain, silent_certain, silent_certain, silent_certain, silent_certain,
    silent_certain, List.forall_mem_nil _⟩

theorem tables_apart :
    ((errorTable ++ refusalTable).map Prod.fst).Pairwise fun a b => apart a b := by
  decide +kernel

/-- Among all messages none is about two things. -/
theorem led_tables_certain : Certain (led (errorTable ++ refusalTable)) := by
  apply led_certain tables_apart
  have herror : Certain (led errorTable) := by
    refine led_certain (tables_apart.sublist ?_) errorTable_certain
    exact (List.sublist_append_left errorTable refusalTable).map Prod.fst
  rw [List.forall_mem_append]
  refine ⟨errorTable_certain, ?_⟩
  simp only [refusalTable, List.forall_mem_cons]
  exact ⟨faultTable_certain, herror, silent_certain, List.forall_mem_nil _⟩

/-! ### The form of messages -/

section Led

variable {table : List (String × About)} {word : String}

theorem led_mono {table' : List (String × About)} (h : table ⊆ table') {text : String}
    {u : Option UnitId} (hled : led table text u) : led table' text u := by
  obtain ⟨entry, hentry, hrest⟩ := hled
  exact ⟨entry, h hentry, hrest⟩

theorem led_of_getElem? {rest : String} {R : About} {u : Option UnitId} (i : Nat)
    (h : table[i]? = some (word, R)) (hrest : R rest u) : led table (word ++ rest) u :=
  ⟨_, List.mem_of_getElem? h, rest, rfl, hrest⟩

theorem led_label {closing : String → Prop} {c : String} (i : Nat)
    (h : table[i]? = some (word, framed closing)) (hc : closing c) (u : UnitId) :
    led table (word ++ u.label ++ c) (some u) := by
  rw [String.append_assoc]
  exact led_of_getElem? i h ⟨u, rfl, c, hc, rfl⟩

theorem led_label_inOperation {words : String} {op : Option String} (i : Nat)
    (h : table[i]? = some (word, framed (inOperation words))) (hop : NamesType op) (u : UnitId) :
    led table (word ++ u.label ++ words ++ Error.context op) (some u) := by
  rw [String.append_assoc]
  exact led_label i h ⟨op, hop, rfl⟩ u

/-- The text begins like one that is about no unit. -/
def Hushed (table : List (String × About)) (text : String) : Prop :=
  ∃ word rest, (word, silent) ∈ table ∧ text = word ++ rest

theorem hushed_of_getElem? (i : Nat) (h : table[i]? = some (word, silent)) (rest : String) :
    Hushed table (word ++ rest) :=
  ⟨word, rest, List.mem_of_getElem? h, rfl⟩

theorem Hushed.append {text : String} (h : Hushed table text) (more : String) :
    Hushed table (text ++ more) := by
  obtain ⟨word, rest, hword, rfl⟩ := h
  exact ⟨word, rest ++ more, hword, String.append_assoc⟩

theorem Hushed.led {text : String} (h : Hushed table text) : led table text none := by
  obtain ⟨word, rest, hword, htext⟩ := h
  exact ⟨_, hword, rest, htext, rfl⟩

/-- The name of a type begins with one of the initials. -/
theorem hushed_name (h : ∀ i ∈ initials, (i, silent) ∈ table) (type : OpType) :
    Hushed table type.name := by
  obtain ⟨i, hi, rest, hname⟩ := exists_initial type
  exact ⟨i, rest, h i hi, hname⟩

end Led

end Message

open Message

/-- Where operations are named, it is by their types. -/
def DocumentFault.NamesTypes : DocumentFault → Prop
  | .argumentCount op _ _ => NamesType op
  | _ => True

def Error.NamesTypes : Error → Prop
  | .qubitNotFound _ op | .bitNotFound _ op | .duplicateQubit _ op | .duplicateBit _ op =>
    NamesType op
  | .invalidDocument fault => fault.NamesTypes
  | _ => True

theorem DocumentFault.led_message {fault : DocumentFault} (h : fault.NamesTypes) :
    led documentTable fault.message fault.unit? := by
  have hinitials : ∀ i ∈ initials, (i, silent) ∈ documentTable := fun i hi =>
    List.mem_cons_of_mem _ (List.mem_map_of_mem hi)
  cases fault with
  | noConditionalPayload =>
    exact ((hushed_name hinitials .conditional).append " op without conditional payload").led
  | noBoxPayload => exact ((hushed_name hinitials .circBox).append " op without box payload").led
  | argumentCount op expected got =>
    obtain ⟨type, rfl⟩ := h op rfl
    exact (hushed_name hinitials type |>.append _ |>.append _ |>.append _ |>.append _).led
  | repeatedSource q | repeatedTarget q | targetNotSource q =>
    exact led_label 0 rfl (by decide) q.id

theorem Error.led_message {e : Error} (h : e.NamesTypes) : led errorTable e.message e.unit? := by
  cases e with
  | qubitNotFound q op => exact led_label_inOperation 0 rfl h q.id
  | bitNotFound b op => exact led_label_inOperation 1 rfl h b.id
  | duplicateUnit u => exact led_label 2 rfl (by rfl) u
  | duplicateQubit q op => exact led_label_inOperation 3 rfl h q.id
  | duplicateBit b op => exact led_label_inOperation 4 rfl h b.id
  | invalidDocument fault => exact led_of_getElem? 5 rfl (DocumentFault.led_message h)
  | duplicateRegister name => exact ((hushed_of_getElem? 6 rfl _).append _).led
  | qubitCountMismatch op expected got | bitCountMismatch op expected got =>
    exact (hushed_of_getElem? 7 rfl _ |>.append _ |>.append _ |>.append _ |>.append _).led
  | invalidCondition fault => exact (hushed_of_getElem? 8 rfl _).led
  | nestedCondition op => exact ((hushed_of_getElem? 9 rfl _).append _).led
  | unsupportedOp fault => exact (hushed_of_getElem? 10 rfl _).led
  | unreadable failure => exact (hushed_of_getElem? 11 rfl _).led

namespace Qasm

theorem Fault.led_message (fault : Fault) : led faultTable fault.message fault.unit? := by
  have hinitials : ∀ i ∈ initials, (i, silent) ∈ faultTable := fun i hi =>
    List.mem_cons_of_mem _ (List.mem_map_of_mem (List.mem_append_left _ hi))
  cases fault with
  | notSingleIndex u => exact led_label 0 rfl (by rfl) u
  | permutation =>
    have hword : faultTable[10]? = some ("implicit qubit permutation ", silent) := rfl
    exact (hushed_of_getElem? 10 hword "has no QASM3 form").led
  | sharedName name => exact ((hushed_of_getElem? 11 rfl _).append _).led
  | partialRegister condition => exact ((hushed_of_getElem? 12 rfl _).append _).led
  | notAGate type => exact ((hushed_name hinitials type).append _).led
  | boxLeft => exact ((hushed_name hinitials .circBox).append " left after decomposition").led
  | measureWithoutBit => exact ((hushed_name hinitials .measure).append " has no bit").led

/-- Where the circuit is the cause, operations are named by their types. -/
def Refusal.NamesTypes : Refusal → Prop
  | .circuit cause => cause.NamesTypes
  | _ => True

theorem Refusal.led_message {r : Refusal} (h : r.NamesTypes) :
    led refusalTable r.message r.unit? := by
  cases r with
  | unsupported fault => exact led_of_getElem? 0 rfl fault.led_message
  | circuit cause => exact led_of_getElem? 1 rfl (Error.led_message h)
  | overflow cause =>
    cases cause
    have hword : refusalTable[2]? = some ("attempt to add ", silent) := rfl
    exact (hushed_of_getElem? 2 hword "with overflow").led

end Qasm

end QuantumCircuit
