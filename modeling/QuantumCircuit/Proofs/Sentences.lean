import Mathlib.Algebra.BigOperators.Group.Finset.Basic
import Mathlib.Data.List.DropRight
import QuantumCircuit.Proofs.ProgramText

/-! What a text says to someone who knows nothing of the program it was written from. A text is
a row of sentences, ended by semicolons and braces, and the blanks around a sentence do not
count. Some sentences declare a register and some ask for a bit or for a whole register; these
forms are spelled out here without use of the functions that write them. In the text of a simple
program no sentence can be mistaken for another, since no name holds what ends a sentence. -/

namespace QuantumCircuit.Qasm

/-! ### Sentences -/

/-- A statement ends with a semicolon, and a block with braces. -/
def ends (c : Char) : Bool := [';', '\x7b', '\x7d'].contains c

def strip (cs : List Char) : List Char :=
  (cs.dropWhile Char.isWhitespace).rdropWhile Char.isWhitespace

def sentencesOf (cs : List Char) : List String :=
  (cs.splitOnP ends).map fun sentence => String.ofList (strip sentence)

/-- The sentences of a text, without the blanks around them. The last one is not ended. -/
def sentences (text : String) : List String := sentencesOf text.toList

/-- The sentence declares a register of that name, and nothing else. -/
def IsDeclarationOf (name s : String) : Prop :=
  IsWord name ∧ ∃ kind ∈ ["qubit", "bit"], ∃ size, s = declared kind size name

/-- One sentence declares the name, as that many units of that kind, and no other one does. -/
def DeclaredOnce (text kind : String) (size : ℕ) (name : String) : Prop :=
  ∃ before after, sentences text = before ++ declared kind size name :: after ∧
    ∀ s ∈ before ++ after, ¬ IsDeclarationOf name s

/-- The question that opens a guarded block. -/
def compared (operand : String) (value : ℕ) : String :=
  "if (" ++ (operand ++ " == " ++ value.repr) ++ ")"

/-- The answer to such a question, for given values of the bits. A bit is compared by itself. A
register is compared as the number that all its bits spell, as many as the text declares, bit `i`
counting `2 ^ i`. -/
inductive IfHolds (text : String) (values : Bit → Bool) : String → Prop
  | bit {name : String} {i : UInt32} {value : ℕ} (hname : IsWord name)
      (hvalue : (values (.inRegister name i)).toNat = value) :
      IfHolds text values (compared (name ++ "[" ++ i.toNat.repr ++ "]") value)
  | register {name : String} {size value : ℕ} (hname : IsWord name)
      (hsize : declared "bit" size name ∈ sentences text)
      (hvalue : ∑ i ∈ Finset.range size,
        (values (.inRegister name (UInt32.ofNat i))).toNat * 2 ^ i = value) :
      IfHolds text values (compared name value)

def opensIf (s : String) : Bool := "if (".toList.isPrefixOf s.toList

/-- The sentences that open guarded blocks, in order. -/
def ifs (text : String) : List String := (sentences text).filter opensIf

/-! ### Reading -/

theorem strip_eq_self {cs : List Char} (hhead : ∀ c ∈ cs.head?, c.isWhitespace = false)
    (hlast : ∀ c ∈ cs.getLast?, c.isWhitespace = false) : strip cs = cs := by
  have hdrop : cs.dropWhile Char.isWhitespace = cs := by
    cases cs with
    | nil => rfl
    | cons c cs => exact List.dropWhile_cons_of_neg (by simp [hhead c rfl])
  rw [strip, hdrop, List.rdropWhile_eq_self_iff]
  intro hne
  simp [hlast _ (List.getLast?_eq_getLast_of_ne_nil hne)]

/-- Characters of a kind that has no semicolon and no braces do not end a sentence. -/
theorem ends_eq_false {p : Char → Bool} (hp : [';', '\x7b', '\x7d'].all (!p ·)) {c : Char}
    (h : p c) : ends c = false := by
  rw [Bool.eq_false_iff]
  intro hc
  have hnot := List.all_eq_true.1 hp c (List.contains_iff_mem.1 hc)
  simp [h] at hnot

theorem any_ends_of_bodyChar {cs : List Char} (h : ∀ c ∈ cs, bodyChar c) : cs.any ends = false := by
  rw [List.any_eq_false]
  intro c hc
  simp [ends_eq_false (p := bodyChar) (by decide) (h c hc)]

/-- The characters are read as these sentences, whatever follows. -/
def Reads (cs : List Char) (ss : List String) : Prop :=
  ∀ rest, sentencesOf (cs ++ rest) = ss ++ sentencesOf rest

namespace Reads

theorem nil : Reads [] [] := fun _ => rfl

theorem append {cs ds : List Char} {ss ts : List String} (hc : Reads cs ss) (hd : Reads ds ts) :
    Reads (cs ++ ds) (ss ++ ts) := by
  intro rest
  rw [List.append_assoc, hc, hd, List.append_assoc]

theorem flatMap {α : Type} {xs : List α} {f : α → List Char} {g : α → List String}
    (h : ∀ x ∈ xs, Reads (f x) (g x)) : Reads (xs.flatMap f) (xs.flatMap g) := by
  induction xs with
  | nil => exact nil
  | cons x xs ih =>
    rw [List.forall_mem_cons] at h
    exact h.1.append (ih h.2)

/-- A sentence is read up to what ends it. -/
theorem ended {cs : List Char} (h : cs.any ends = false) {x : Char} (hx : ends x) :
    Reads (cs ++ [x]) [String.ofList (strip cs)] := by
  intro rest
  have hcs : ∀ c ∈ cs, ends c = false := by simpa using h
  rw [List.append_assoc, List.singleton_append, sentencesOf,
    List.splitOnP_append_cons_of_forall_mem hcs x hx]
  rfl

/-- Blanks before a sentence are not read. -/
theorem blank {cs : List Char} (h : cs.all Char.isWhitespace) : Reads cs [] := by
  induction cs with
  | nil => exact nil
  | cons c cs ih =>
    rw [List.all_cons, Bool.and_eq_true] at h
    intro rest
    have hc : ends c = false := ends_eq_false (by decide) h.1
    rw [← ih h.2 rest, List.cons_append, sentencesOf, sentencesOf,
      List.splitOnP_cons_eq_if_modifyHead, if_neg (by simp [hc])]
    obtain ⟨first, others, hsplit⟩ :=
      List.exists_cons_of_ne_nil (List.splitOnP_ne_nil ends (cs ++ rest))
    have hstrip : strip (c :: first) = strip first := by
      rw [strip, strip, List.dropWhile_cons_of_pos h.1]
    rw [hsplit, List.modifyHead_cons, List.map_cons, List.map_cons, hstrip]

end Reads

/-- The characters of lines. -/
def linesText (lines : List String) : List Char :=
  lines.flatMap fun line => line.toList ++ ['\n']

theorem linesText_map {α : Type} (xs : List α) (f : α → String) :
    linesText (xs.map f) = xs.flatMap fun x => linesText [f x] := by
  simp [linesText, List.flatMap_map]

theorem linesText_append (ls ms : List String) :
    linesText (ls ++ ms) = linesText ls ++ linesText ms := List.flatMap_append

theorem Program.toList_text (p : Program) : p.text.toList = linesText p.lines := by
  have hnewline : "\n".toList = ['\n'] := rfl
  simp only [Program.text, linesText, String.toList_join, List.flatMap_map, String.toList_append,
    hnewline]

/-- A line that ends with its only sentence. -/
theorem Reads.line {line : String} {cs : List Char} {x : Char} (hline : line.toList = cs ++ [x])
    (hcs : cs.any ends = false) (hx : ends x) :
    Reads (linesText [line]) [String.ofList (strip cs)] := by
  have hnewline : Reads ['\n'] [] := .blank (by decide)
  simpa [linesText, hline] using (Reads.ended hcs hx).append hnewline

/-! ### The sentences of a program -/

/-- The text of an action without its end and, if it has no operands, the blank before that. -/
def Action.sentence (a : Action) : String := String.ofList (strip a.body.toList)

def Guard.sentence (g : Guard) : String := "if (" ++ g.text ++ ")"

def Statement.sentences (s : Statement) : List String :=
  match s.guard with
  | none => [s.action.sentence]
  | some guard => [guard.sentence, s.action.sentence, ""]

theorem Action.Simple.reads {a : Action} (h : a.Simple) :
    Reads (linesText [a.text]) [a.sentence] := by
  refine Reads.line (x := ';') ?_ (any_ends_of_bodyChar h.bodyChar) (by decide)
  rw [Action.text_eq, String.toList_append]
  rfl

theorem strip_guard (g : Guard) :
    strip ("if (" ++ g.text ++ ") ").toList = g.sentence.toList := by
  have hdrop : ("if (" ++ g.text ++ ") ").toList.dropWhile Char.isWhitespace
      = g.sentence.toList ++ [' '] := by
    simp [Guard.sentence, List.dropWhile_cons_of_neg]
  have hlast : g.sentence.toList = ("if (" ++ g.text).toList ++ [')'] := by
    simp [Guard.sentence]
  rw [strip, hdrop, List.rdropWhile_concat_pos _ _ _ (by decide), hlast,
    List.rdropWhile_concat_neg _ _ _ (by decide)]

theorem Guard.Simple.reads {g : Guard} (h : g.Simple) :
    Reads (linesText ["if (" ++ g.text ++ ") \x7b"]) [g.sentence] := by
  have hbody : ("if (" ++ g.text ++ ") ").toList.any ends = false := by
    simp only [String.toList_append, List.any_append, any_ends_of_bodyChar h.bodyChar,
      Bool.or_false]
    decide
  have hline : ("if (" ++ g.text ++ ") \x7b").toList
      = ("if (" ++ g.text ++ ") ").toList ++ ['\x7b'] := by simp
  have hread := Reads.line hline hbody (by decide)
  rwa [strip_guard, String.ofList_toList] at hread

theorem Statement.Simple.reads {s : Statement} (h : s.Simple) :
    Reads (linesText s.lines) s.sentences := by
  obtain ⟨guard, action⟩ := s
  cases guard with
  | none => exact h.2.reads
  | some guard =>
    have hindent : Reads "    ".toList [] := .blank (by decide)
    have hbrace : "\x7d".toList = [] ++ ['\x7d'] := rfl
    have hclose : Reads (linesText ["\x7d"]) [""] := Reads.line hbrace rfl (by decide)
    have hread := (h.1 guard rfl).reads.append ((hindent.append h.2.reads).append hclose)
    simpa [linesText, Statement.lines, Statement.sentences] using hread

theorem isWhitespace_of_wordChar {c : Char} (h : wordChar c) : c.isWhitespace = false := by
  rw [Bool.eq_false_iff]
  intro hc
  have hcases : c = ' ' ∨ c = '\t' ∨ c = '\r' ∨ c = '\n' := by
    simpa [Char.isWhitespace, or_assoc] using hc
  rcases hcases with rfl | rfl | rfl | rfl <;> exact absurd h (by decide)

theorem IsWord.exists_getLast? {s : String} (h : IsWord s) :
    ∃ c, s.toList.getLast? = some c ∧ wordChar c := by
  have hne : s.toList ≠ [] := by simpa using h.1
  exact ⟨_, List.getLast?_eq_getLast_of_ne_nil hne, h.2 _ (List.getLast_mem hne)⟩

theorem strip_declared {kind : String} (hkind : IsWord kind) (size : ℕ) {name : String}
    (hname : IsWord name) : strip (declared kind size name).toList
      = (declared kind size name).toList := by
  obtain ⟨c, cs, hfirst, hc⟩ := hkind.cons
  obtain ⟨d, hlast, hd⟩ := hname.exists_getLast?
  apply strip_eq_self
  · simp [declared, hfirst, isWhitespace_of_wordChar hc]
  · simp only [declared, String.toList_append, List.getLast?_append, hlast, Option.some_or]
    intro x hx
    obtain rfl := Option.some.inj hx
    exact isWhitespace_of_wordChar hd

theorem declaration_reads {kind : String} (hkind : IsWord kind) {r : Register}
    (hname : IsWord r.name) :
    Reads (linesText [declaration kind r]) [declared kind r.size.toNat r.name] := by
  have hline : (declaration kind r).toList
      = (declared kind r.size.toNat r.name).toList ++ [';'] := by
    rw [declaration_eq, String.toList_append]
    rfl
  have hread := Reads.line hline
    (any_ends_of_bodyChar (bodyChar_declared hkind r.size.toNat hname)) (by decide)
  rwa [strip_declared hkind _ hname, String.ofList_toList] at hread

/-- The registers that a program declares, with the words for their kinds. -/
def Program.registers (p : Program) : List (String × Register) :=
  p.qubits.map ("qubit", ·) ++ p.bits.map ("bit", ·)

/-- The sentence that declares a register. -/
def registerSentence (d : String × Register) : String := declared d.1 d.2.size.toNat d.2.name

theorem Program.declarations_eq (p : Program) :
    p.declarations = p.registers.map fun d => declaration d.1 d.2 := by
  simp [Program.declarations, Program.registers, Function.comp_def]

theorem Program.mem_registers_iff {p : Program} {d : String × Register} : d ∈ p.registers ↔
    d.1 = "qubit" ∧ d.2 ∈ p.qubits ∨ d.1 = "bit" ∧ d.2 ∈ p.bits := by
  obtain ⟨kind, r⟩ := d
  simp [Program.registers, and_comm, eq_comm]

theorem Program.kind_of_mem_registers {p : Program} {d : String × Register}
    (hd : d ∈ p.registers) : d.1 ∈ ["qubit", "bit"] := by
  rcases mem_registers_iff.1 hd with ⟨hkind, -⟩ | ⟨hkind, -⟩ <;> simp [hkind]

theorem isWord_of_kind {kind : String} (h : kind ∈ ["qubit", "bit"]) : IsWord kind := by
  have hall : ∀ kind ∈ ["qubit", "bit"], IsWord kind := by decide
  exact hall kind h

theorem Program.Simple.isDeclaration {p : Program} (h : p.Simple) {d : String × Register}
    (hd : d ∈ p.registers) : IsDeclarationOf d.2.name (registerSentence d) := by
  refine ⟨?_, d.1, p.kind_of_mem_registers hd, d.2.size.toNat, rfl⟩
  rcases mem_registers_iff.1 hd with ⟨-, hr⟩ | ⟨-, hr⟩
  · exact h.qubits d.2 hr
  · exact h.bits d.2 hr

theorem Program.Simple.declarations_read {p : Program} (h : p.Simple) :
    Reads (linesText p.declarations) (p.registers.map registerSentence) := by
  rw [p.declarations_eq, linesText_map, List.map_eq_flatMap]
  exact .flatMap fun d hd =>
    declaration_reads (isWord_of_kind (p.kind_of_mem_registers hd)) (h.isDeclaration hd).1

theorem Program.Simple.statements_read {p : Program} (h : p.Simple) :
    Reads (linesText (p.statements.flatMap Statement.lines))
      (p.statements.flatMap Statement.sentences) := by
  rw [linesText, List.flatMap_assoc]
  exact .flatMap fun s hs => (h.statements s hs).reads

def headSentences : List String := ["OPENQASM 3.0", "include \"stdgates.inc\""]

/-- The sentences behind the declarations. -/
def Program.bodySentences (p : Program) : List String :=
  p.statements.flatMap Statement.sentences ++ [""]

theorem head_reads :
    Reads (linesText ["OPENQASM 3.0;", "include \"stdgates.inc\";", ""]) headSentences := by
  have hversion : "OPENQASM 3.0;".toList = "OPENQASM 3.0".toList ++ [';'] := rfl
  have hinclude : "include \"stdgates.inc\";".toList
      = "include \"stdgates.inc\"".toList ++ [';'] := rfl
  have hblank : Reads (linesText [""]) [] := .blank (by decide)
  exact ((Reads.line hversion (by decide) (by decide)).append
    (Reads.line hinclude (by decide) (by decide))).append hblank

theorem Program.Simple.sentences_eq {p : Program} (h : p.Simple) :
    sentences p.text = headSentences ++ p.registers.map registerSentence ++ p.bodySentences := by
  have hdeclarations : Reads
      (linesText (if p.declarations.isEmpty then [] else p.declarations ++ [""]))
      (p.registers.map registerSentence) := by
    have hread := h.declarations_read
    split_ifs with hempty
    · rwa [List.isEmpty_iff.1 hempty] at hread
    · have hblank : Reads (linesText [""]) [] := .blank (by decide)
      simpa [linesText_append] using hread.append hblank
  have hread := (head_reads.append hdeclarations).append h.statements_read []
  rw [← linesText_append, ← linesText_append, ← Program.lines, ← p.toList_text,
    List.append_nil, List.append_assoc] at hread
  exact hread

/-! ### Sentences told apart -/

theorem toList_declared (kind : String) (size : ℕ) (name : String) :
    (declared kind size name).toList
      = kind.toList ++ '[' :: (Nat.toDigits 10 size ++ ']' :: ' ' :: name.toList) := by
  simp [declared]

theorem declared_inj {kind kind' name name' : String} {size size' : ℕ} (hkind : IsWord kind)
    (hkind' : IsWord kind') (h : declared kind size name = declared kind' size' name') :
    kind = kind' ∧ size = size' ∧ name = name' := by
  have hlist := congrArg String.toList h
  rw [toList_declared, toList_declared] at hlist
  obtain ⟨rfl, -, hrest⟩ := word_inj hkind hkind' (by decide) (by decide) hlist
  obtain ⟨rfl, -, hrest⟩ := number_inj (by decide) (by decide) hrest
  have hname : name.toList = name'.toList := by simpa using hrest
  exact ⟨rfl, rfl, String.toList_inj.1 hname⟩

/-- What declares a name that is declared once is that declaration. -/
theorem DeclaredOnce.eq_of_isDeclaration {text kind name s : String} {size : ℕ}
    (h : DeclaredOnce text kind size name) (hs : s ∈ sentences text)
    (hdeclares : IsDeclarationOf name s) : s = declared kind size name := by
  obtain ⟨before, after, hsplit, hothers⟩ := h
  rw [hsplit, List.mem_append, List.mem_cons] at hs
  rcases hs with hs | rfl | hs
  · exact absurd hdeclares (hothers s (List.mem_append_left _ hs))
  · rfl
  · exact absurd hdeclares (hothers s (List.mem_append_right _ hs))

/-- A sentence that declares starts with its kind. -/
theorem IsDeclarationOf.head? {name s : String} (h : IsDeclarationOf name s) :
    s.toList.head? = some 'q' ∨ s.toList.head? = some 'b' := by
  obtain ⟨-, kind, hkind, size, rfl⟩ := h
  simp only [List.mem_cons, List.not_mem_nil, or_false] at hkind
  rcases hkind with rfl | rfl
  · exact .inl (by simp [declared])
  · exact .inr (by simp [declared])

theorem IsDeclarationOf.not_opensIf {name s : String} (h : IsDeclarationOf name s) :
    opensIf s = false := by
  rw [Bool.eq_false_iff]
  intro hopens
  obtain ⟨more, hmore⟩ := List.isPrefixOf_iff_prefix.1 hopens
  have hhead := h.head?
  rw [← hmore] at hhead
  simp at hhead

theorem Guard.opensIf_sentence (g : Guard) : opensIf g.sentence = true := by
  simp [opensIf, Guard.sentence]

theorem Guard.not_isDeclaration (g : Guard) (name : String) :
    ¬ IsDeclarationOf name g.sentence := by
  intro h
  have hopens := h.not_opensIf
  rw [g.opensIf_sentence] at hopens
  cases hopens

theorem not_isDeclaration_empty (name : String) : ¬ IsDeclarationOf name "" := by
  intro h
  have hhead := h.head?
  simp at hhead

theorem compared_inj {a b : String} {v w : ℕ} (ha : ' ' ∉ a.toList) (hb : ' ' ∉ b.toList)
    (h : compared a v = compared b w) : a = b ∧ v = w := by
  rw [compared, compared, String.append_left_inj, String.append_right_inj] at h
  exact comparison_inj ha hb h

theorem label_single (name : String) (i : UInt32) :
    (UnitId.mk name [i]).label = name ++ "[" ++ i.toNat.repr ++ "]" := by
  simp [UnitId.label, UnitId.indexText]

theorem ifHolds_bit_iff {text : String} {values : Bit → Bool} {b : Bit} (hb : Simple b.id)
    {v : ℕ} : IfHolds text values (compared b.label v) ↔ (values b).toNat = v := by
  constructor
  · generalize hs : compared b.label v = s
    intro h
    cases h with
    | @bit name i value hname hvalue =>
      rw [← label_single] at hs
      have hsimple : Simple ⟨name, [i]⟩ := ⟨hname, i, rfl⟩
      obtain ⟨hlabel, rfl⟩ := compared_inj hb.blank_notMem_label hsimple.blank_notMem_label hs
      rwa [bit_eq_of_id (hb.eq_of_label hsimple hlabel)]
    | register hname _ _ =>
      have hlabel := (compared_inj hb.blank_notMem_label hname.blank_notMem hs).1
      exact absurd hlabel (hb.label_ne_word hname)
  · intro hvalue
    obtain ⟨⟨name, index⟩⟩ := b
    obtain ⟨hname, i, rfl⟩ := hb
    rw [Bit.label, label_single]
    exact .bit hname hvalue

theorem ifHolds_register_iff {text : String} {values : Bit → Bool} {name : String}
    (hname : IsWord name) {v : ℕ} : IfHolds text values (compared name v) ↔
      ∃ size, declared "bit" size name ∈ sentences text ∧
        ∑ i ∈ Finset.range size,
          (values (.inRegister name (UInt32.ofNat i))).toNat * 2 ^ i = v := by
  constructor
  · generalize hs : compared name v = s
    intro h
    cases h with
    | @bit name' i value hname' hvalue =>
      rw [← label_single] at hs
      have hsimple : Simple ⟨name', [i]⟩ := ⟨hname', i, rfl⟩
      have hlabel := (compared_inj hname.blank_notMem hsimple.blank_notMem_label hs).1
      exact absurd hlabel.symm (hsimple.label_ne_word hname)
    | @register name' size value hname' hsize hvalue =>
      obtain ⟨rfl, rfl⟩ := compared_inj hname.blank_notMem hname'.blank_notMem hs
      exact ⟨size, hsize, hvalue⟩
  · rintro ⟨size, hsize, hvalue⟩
    exact .register hname hsize hvalue

theorem Guard.sentence_bit (b : Bit) (v : UInt64) :
    (Guard.bit b v).sentence = compared b.label v.toNat := rfl

theorem Guard.sentence_register (name : String) (v : UInt64) :
    (Guard.register name v).sentence = compared name v.toNat := rfl

namespace Action.Simple

variable {a : Action}

/-- The sentence of an action is the start of its text. -/
theorem exists_text (h : a.Simple) : ∃ rest, a.text.toList = a.sentence.toList ++ rest := by
  obtain ⟨r, hr⟩ := h.toList_text
  obtain ⟨c, cs, hfirst, hc⟩ := h.word_isWord.cons
  rw [hfirst, Action.text_eq, String.toList_append] at hr
  have hdrop : a.body.toList.dropWhile Char.isWhitespace = a.body.toList := by
    cases hbody : a.body.toList with
    | nil => rfl
    | cons d ds =>
      rw [hbody] at hr
      obtain ⟨rfl, -⟩ := List.cons.inj hr
      exact List.dropWhile_cons_of_neg (by simp [isWhitespace_of_wordChar hc])
  obtain ⟨blanks, hblanks⟩ := List.rdropWhile_prefix Char.isWhitespace a.body.toList
  have hsentence : a.sentence.toList ++ blanks = a.body.toList := by
    rwa [Action.sentence, String.toList_ofList, strip, hdrop]
  exact ⟨blanks ++ ";".toList, by rw [Action.text_eq, String.toList_append, ← hsentence,
    List.append_assoc]⟩

theorem not_isDeclaration (h : a.Simple) (name : String) : ¬ IsDeclarationOf name a.sentence := by
  rintro ⟨hname, kind, hkind, size, hs⟩
  obtain ⟨r, hr⟩ := h.toList_text
  obtain ⟨rest, hrest⟩ := h.exists_text
  rw [hs, toList_declared, List.append_assoc] at hrest
  obtain ⟨hword, hmark, -⟩ := word_inj h.word_isWord (isWord_of_kind hkind) a.mark_not_wordChar
    (by decide) (hr.symm.trans hrest)
  cases a with
  | gate | reset => simp [Action.mark] at hmark
  | measure qubits target =>
    -- both go on with a number and a bracket, and then with a name or with a sign
    obtain ⟨i, -, hlabel⟩ := h.2.toList_label
    simp only [Action.text, Bit.label, String.toList_append, hlabel, List.append_assoc,
      List.cons_append, List.nil_append] at hrest
    obtain ⟨-, -, hindex⟩ := word_inj h.2.1 (isWord_of_kind hkind) (by decide) (by decide) hrest
    obtain ⟨-, -, hsign⟩ := number_inj (by decide) (by decide) hindex
    obtain ⟨c, cs, hfirst, hc⟩ := hname.cons
    have hc' : '=' = c := by
      simp only [hfirst, List.cons_append] at hsign
      exact (List.cons.inj (List.cons.inj hsign).2).1
    exact absurd (hc' ▸ hc) (by decide)

theorem not_opensIf (h : a.Simple) : opensIf a.sentence = false := by
  rw [Bool.eq_false_iff]
  intro hopens
  obtain ⟨rest, hrest⟩ := h.exists_text
  obtain ⟨more, hmore⟩ := List.isPrefixOf_iff_prefix.1 hopens
  refine h.text_ne_if ('(' :: (more ++ rest)) ?_
  rw [hrest, ← hmore]
  rfl

end Action.Simple

theorem Statement.Simple.not_isDeclaration {s : Statement} (h : s.Simple) (name : String) :
    ∀ t ∈ s.sentences, ¬ IsDeclarationOf name t := by
  obtain ⟨guard, action⟩ := s
  have haction : ¬ IsDeclarationOf name action.sentence := h.2.not_isDeclaration name
  cases guard with
  | none => simpa [Statement.sentences] using haction
  | some guard =>
    simp [Statement.sentences, haction, not_isDeclaration_empty, guard.not_isDeclaration]

theorem Statement.Simple.filter_sentences {s : Statement} (h : s.Simple) :
    s.sentences.filter opensIf = (s.guard.map Guard.sentence).toList := by
  obtain ⟨guard, action⟩ := s
  have haction : opensIf action.sentence = false := h.2.not_opensIf
  cases guard with
  | none => simp [Statement.sentences, haction]
  | some guard =>
    have hend : opensIf "" = false := rfl
    simp [Statement.sentences, haction, guard.opensIf_sentence, hend]

namespace Program.Simple

variable {p : Program}

theorem not_isDeclaration_head (name : String) :
    ∀ s ∈ headSentences, ¬ IsDeclarationOf name s := by
  simp only [headSentences, List.forall_mem_cons]
  refine ⟨fun h => ?_, fun h => ?_, by simp⟩
  · exact absurd h.head? (by decide)
  · exact absurd h.head? (by decide)

theorem not_isDeclaration_body (h : p.Simple) (name : String) :
    ∀ s ∈ p.bodySentences, ¬ IsDeclarationOf name s := by
  intro s hs
  rcases List.mem_append.1 hs with hs | hs
  · obtain ⟨t, ht, hs⟩ := List.mem_flatMap.1 hs
    exact (h.statements t ht).not_isDeclaration name s hs
  · obtain rfl := List.mem_singleton.1 hs
    exact not_isDeclaration_empty name

theorem mem_sentences (h : p.Simple) {d : String × Register} (hd : d ∈ p.registers) :
    registerSentence d ∈ sentences p.text := by
  rw [h.sentences_eq]
  exact List.mem_append_left _ (List.mem_append_right _ (List.mem_map_of_mem hd))

/-- Among the sentences of a program, with all its registers or some, one that declares a name is
that of a register of this name. -/
theorem exists_of_isDeclaration (h : p.Simple) {ds : List (String × Register)}
    (hds : ds ⊆ p.registers) {name s : String}
    (hs : s ∈ headSentences ++ ds.map registerSentence ++ p.bodySentences)
    (hdeclares : IsDeclarationOf name s) : ∃ d ∈ ds, d.2.name = name ∧ s = registerSentence d := by
  rcases List.mem_append.1 hs with hs | hs
  · rcases List.mem_append.1 hs with hs | hs
    · exact absurd hdeclares (not_isDeclaration_head name s hs)
    · obtain ⟨d, hd, rfl⟩ := List.mem_map.1 hs
      obtain ⟨-, kind, hkind, size, hs⟩ := hdeclares
      have hword := isWord_of_kind (p.kind_of_mem_registers (hds hd))
      exact ⟨d, hd, (declared_inj hword (isWord_of_kind hkind) hs).2.2, rfl⟩
  · exact absurd hdeclares (h.not_isDeclaration_body name s hs)

/-- Where the names differ, each register is declared once. -/
theorem declaredOnce (h : p.Simple) (hnames : (p.registers.map fun d => d.2.name).Nodup)
    {d : String × Register} (hd : d ∈ p.registers) :
    DeclaredOnce p.text d.1 d.2.size.toNat d.2.name := by
  obtain ⟨before, after, hsplit⟩ := List.append_of_mem hd
  refine ⟨headSentences ++ before.map registerSentence,
    after.map registerSentence ++ p.bodySentences, ?_, fun s hs hdeclares => ?_⟩
  · simp [h.sentences_eq, hsplit, registerSentence]
  · -- no other register has that name
    have hother : d.2.name ∉ (before ++ after).map fun d => d.2.name := by
      rw [hsplit, List.map_append, List.map_cons, List.nodup_middle, ← List.map_append] at hnames
      exact (List.nodup_cons.1 hnames).1
    have hsub : before ++ after ⊆ p.registers := by
      rw [hsplit]
      exact List.append_subset.2 ⟨List.subset_append_left _ _,
        List.Subset.trans (List.subset_cons_self d after) (List.subset_append_right _ _)⟩
    have hs' : s ∈ headSentences ++ (before ++ after).map registerSentence ++ p.bodySentences := by
      simpa [List.append_assoc] using hs
    obtain ⟨d', hd', hname, -⟩ := h.exists_of_isDeclaration hsub hs' hdeclares
    exact hother (hname ▸ List.mem_map_of_mem hd')

/-- The guarded blocks of a program are opened in the order of its guards. -/
theorem ifs_eq (h : p.Simple) :
    ifs p.text = p.statements.filterMap fun s => s.guard.map Guard.sentence := by
  have hhead : headSentences.filter opensIf = [] := by decide
  have hregisters : (p.registers.map registerSentence).filter opensIf = [] := by
    rw [List.filter_eq_nil_iff, List.forall_mem_map]
    intro d hd
    simp [(h.isDeclaration hd).not_opensIf]
  have hend : [""].filter opensIf = [] := by decide
  rw [ifs, h.sentences_eq, Program.bodySentences, List.filter_append, List.filter_append,
    List.filter_append, hhead, hregisters, hend, List.filter_flatMap, List.append_nil,
    List.append_nil, List.nil_append, List.filterMap_eq_flatMap_toList]
  exact List.flatMap_congr fun s hs => (h.statements s hs).filter_sentences

end Program.Simple

end QuantumCircuit.Qasm
