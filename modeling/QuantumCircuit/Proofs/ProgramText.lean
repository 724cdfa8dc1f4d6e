import QuantumCircuit.Proofs.Lexemes
import QuantumCircuit.Qasm.Program

/-! The text of a program determines the program. Everything in a text is a run of characters
of one kind, ended by a character of another: a name by a bracket or a blank, a number by a
bracket, a brace or a line end, a line by its newline. Two such runs that start equal texts are
equal, so a text can be taken apart from the front. What a statement is shows in what ends its
first word: a bracket only in a measurement, and of the words that a blank ends no two are
alike. Names are assumed to be words; other names could hold any of these characters. -/

namespace QuantumCircuit.Qasm

/-! ### Runs -/

/-- Runs that are ended from outside are told apart from what follows them. -/
theorem run_inj {α : Type} {p : α → Prop} {a b : List α} {x y : α} {r s : List α}
    (ha : ∀ c ∈ a, p c) (hb : ∀ c ∈ b, p c) (hx : ¬ p x) (hy : ¬ p y)
    (h : a ++ x :: r = b ++ y :: s) : a = b ∧ x = y ∧ r = s := by
  induction a generalizing b with
  | nil =>
    cases b with
    | nil => simpa using h
    | cons d b =>
      obtain ⟨rfl, -⟩ := List.cons.inj h
      exact absurd (hb x List.mem_cons_self) hx
  | cons c a ih =>
    cases b with
    | nil =>
      obtain ⟨rfl, -⟩ := List.cons.inj h
      exact absurd (ha c List.mem_cons_self) hy
    | cons d b =>
      obtain ⟨rfl, htail⟩ := List.cons.inj h
      rw [List.forall_mem_cons] at ha hb
      obtain ⟨rfl, rfl, rfl⟩ := ih ha.2 hb.2 htail
      exact ⟨rfl, rfl, rfl⟩

theorem number_inj {m n : Nat} {x y : Char} {r s : List Char} (hx : x.isDigit = false)
    (hy : y.isDigit = false) (h : Nat.toDigits 10 m ++ x :: r = Nat.toDigits 10 n ++ y :: s) :
    m = n ∧ x = y ∧ r = s := by
  have hdigits : ∀ k, ∀ c ∈ Nat.toDigits 10 k, c.isDigit = true := fun k c =>
    Nat.isDigit_of_mem_toDigits (by decide) (by decide)
  obtain ⟨hmn, hxy, hrs⟩ := run_inj (hdigits m) (hdigits n) (by simp [hx]) (by simp [hy]) h
  refine ⟨?_, hxy, hrs⟩
  rw [← Nat.ofDigitChars_ten_toDigits (n := m), hmn, Nat.ofDigitChars_ten_toDigits]

/-! ### Words and units -/

theorem qubit_eq_of_id {q r : Qubit} (h : q.id = r.id) : q = r := by
  cases q
  cases r
  exact congrArg Qubit.mk h

theorem bit_eq_of_id {b d : Bit} (h : b.id = d.id) : b = d := by
  cases b
  cases d
  exact congrArg Bit.mk h

/-- Letters, digits and underscores. -/
def wordChar (c : Char) : Bool := c.isAlphanum || c == '_'

/-- One or more letters, digits or underscores. -/
def IsWord (s : String) : Prop := s ≠ "" ∧ ∀ c ∈ s.toList, wordChar c

instance : DecidablePred IsWord := fun s =>
  decidable_of_iff (s ≠ "" ∧ s.toList.all wordChar) (by rw [IsWord, List.all_eq_true])

theorem IsWord.cons {s : String} (h : IsWord s) : ∃ c cs, s.toList = c :: cs ∧ wordChar c := by
  have hne : s.toList ≠ [] := by simpa using h.1
  obtain ⟨c, cs, hs⟩ := List.exists_cons_of_ne_nil hne
  exact ⟨c, cs, hs, h.2 c (hs ▸ List.mem_cons_self)⟩

theorem word_inj {u v : String} {x y : Char} {r s : List Char} (hu : IsWord u) (hv : IsWord v)
    (hx : wordChar x = false) (hy : wordChar y = false)
    (h : u.toList ++ x :: r = v.toList ++ y :: s) : u = v ∧ x = y ∧ r = s := by
  obtain ⟨huv, hxy, hrs⟩ := run_inj hu.2 hv.2 (by simp [hx]) (by simp [hy]) h
  exact ⟨String.toList_inj.1 huv, hxy, hrs⟩

/-- The unit is named by a word and one index. -/
def Simple (u : UnitId) : Prop := IsWord u.register ∧ ∃ i, u.index = [i]

theorem Simple.toList_label {u : UnitId} (h : Simple u) : ∃ i : UInt32, u.index = [i] ∧
    u.label.toList = u.register.toList ++ '[' :: (Nat.toDigits 10 i.toNat ++ [']']) := by
  obtain ⟨i, hi⟩ := h.2
  exact ⟨i, hi, by simp [UnitId.label, hi, UnitId.indexText]⟩

theorem label_inj {u v : UnitId} (hu : Simple u) (hv : Simple v) {r s : List Char}
    (h : u.label.toList ++ r = v.label.toList ++ s) : u = v ∧ r = s := by
  obtain ⟨i, hi, hlu⟩ := hu.toList_label
  obtain ⟨j, hj, hlv⟩ := hv.toList_label
  rw [hlu, hlv] at h
  simp only [List.append_assoc, List.cons_append, List.nil_append] at h
  obtain ⟨hname, -, hindex⟩ := word_inj hu.1 hv.1 (by decide) (by decide) h
  obtain ⟨hij, -, hrest⟩ := number_inj (by decide) (by decide) hindex
  obtain rfl := UInt32.toNat_inj.1 hij
  obtain ⟨register, index⟩ := u
  obtain ⟨register', index'⟩ := v
  dsimp only at hname hi hj
  subst hname hi hj
  exact ⟨rfl, hrest⟩

theorem Simple.label_cons {u : UnitId} (h : Simple u) :
    ∃ c cs, u.label.toList = c :: cs ∧ wordChar c := by
  obtain ⟨i, -, hl⟩ := h.toList_label
  obtain ⟨c, cs, hs, hc⟩ := h.1.cons
  exact ⟨c, _, by rw [hl, hs]; rfl, hc⟩

/-! ### Actions -/

theorem toList_operands_cons (q : Qubit) (qs : List Qubit) :
    (operands (q :: qs)).toList
      = q.label.toList ++ (if qs = [] then [] else ',' :: ' ' :: (operands qs).toList) := by
  cases qs with
  | nil => simp [operands]
  | cons q' qs => simp [operands]

theorem operands_cons_ne {q : Qubit} (hq : Simple q.id) (qs : List Qubit) (r s : List Char) :
    (operands (q :: qs)).toList ++ r ≠ ';' :: s := by
  intro h
  obtain ⟨c, cs, hlabel, hc⟩ := hq.label_cons
  rw [toList_operands_cons, Qubit.label, hlabel] at h
  obtain ⟨rfl, -⟩ := List.cons.inj h
  exact absurd hc (by decide)

theorem operands_inj {qs qs' : List Qubit} (hqs : ∀ q ∈ qs, Simple q.id)
    (hqs' : ∀ q ∈ qs', Simple q.id)
    (h : (operands qs).toList ++ [';'] = (operands qs').toList ++ [';']) : qs = qs' := by
  induction qs generalizing qs' with
  | nil =>
    cases qs' with
    | nil => rfl
    | cons q' qs' => exact absurd h.symm (operands_cons_ne (hqs' q' List.mem_cons_self) _ _ _)
  | cons q qs ih =>
    cases qs' with
    | nil => exact absurd h (operands_cons_ne (hqs q List.mem_cons_self) _ _ _)
    | cons q' qs' =>
      rw [List.forall_mem_cons] at hqs hqs'
      rw [toList_operands_cons, toList_operands_cons, List.append_assoc, List.append_assoc] at h
      obtain ⟨hq, htail⟩ := label_inj hqs.1 hqs'.1 h
      have hqs_eq : qs = qs' := by
        by_cases hnil : qs = []
        · by_cases hnil' : qs' = []
          · rw [hnil, hnil']
          · simp [hnil, hnil'] at htail
        · by_cases hnil' : qs' = []
          · simp [hnil, hnil'] at htail
          · simp only [hnil, hnil', if_false, List.cons_append, List.cons.injEq, true_and] at htail
            exact ih hqs.2 hqs'.2 htail
      rw [qubit_eq_of_id hq, hqs_eq]

/-- The units of an action are simple, and its gate, if it is one, exists. -/
def Action.Simple : Action → Prop
  | .gate name qubits => (∃ type, gateName? type = some name) ∧ ∀ q ∈ qubits, Qasm.Simple q.id
  | .measure qubits target => (∀ q ∈ qubits, Qasm.Simple q.id) ∧ Qasm.Simple target.id
  | .reset qubits => ∀ q ∈ qubits, Qasm.Simple q.id

theorem gateName?_isWord {type : OpType} {name : String} (h : gateName? type = some name) :
    IsWord name ∧ name ≠ "reset" ∧ name ≠ "if" := by
  have all : ∀ type ∈ OpType.all, ∀ name ∈ gateName? type,
      IsWord name ∧ name ≠ "reset" ∧ name ≠ "if" := by decide
  exact all type type.mem_all name h

/-- The first word of an action. -/
def Action.word : Action → String
  | .gate name _ => name
  | .measure _ target => target.id.register
  | .reset _ => "reset"

/-- What ends the first word of an action. -/
def Action.mark : Action → Char
  | .measure _ _ => '['
  | _ => ' '

theorem Action.mark_not_wordChar (a : Action) : wordChar a.mark = false := by
  cases a <;> rfl

namespace Action.Simple

theorem word_isWord {a : Action} (h : a.Simple) : IsWord a.word := by
  cases a with
  | gate name qubits =>
    obtain ⟨type, htype⟩ := h.1
    exact (gateName?_isWord htype).1
  | measure qubits target => exact h.2.1
  | reset qubits => exact (by decide : IsWord "reset")

theorem toList_text {a : Action} (h : a.Simple) :
    ∃ r, a.text.toList = a.word.toList ++ a.mark :: r := by
  cases a with
  | gate name qubits => exact ⟨_, by simp [Action.text, Action.word, Action.mark]; rfl⟩
  | measure qubits target =>
    obtain ⟨i, -, hlabel⟩ := h.2.toList_label
    exact ⟨_, by simp [Action.text, Action.word, Action.mark, Bit.label, hlabel]; rfl⟩
  | reset qubits => exact ⟨_, by simp [Action.text, Action.word, Action.mark]; rfl⟩

/-- An action does not look like the start of a guarded block. -/
theorem text_ne_if {a : Action} (h : a.Simple) (r : List Char) :
    a.text.toList ≠ "if".toList ++ ' ' :: r := by
  intro he
  obtain ⟨t, ht⟩ := h.toList_text
  rw [ht] at he
  obtain ⟨hword, hmark, -⟩ := word_inj h.word_isWord (by decide) a.mark_not_wordChar (by decide) he
  cases a with
  | gate name qubits =>
    obtain ⟨type, htype⟩ := h.1
    exact (gateName?_isWord htype).2.2 hword
  | measure qubits target => simp [Action.mark] at hmark
  | reset qubits => simp [Action.word] at hword

theorem text_inj {a b : Action} (ha : a.Simple) (hb : b.Simple)
    (h : a.text.toList = b.text.toList) : a = b := by
  obtain ⟨r, hr⟩ := ha.toList_text
  obtain ⟨s, hs⟩ := hb.toList_text
  obtain ⟨hword, hmark, -⟩ := word_inj ha.word_isWord hb.word_isWord a.mark_not_wordChar
    b.mark_not_wordChar (by rw [← hr, ← hs, h])
  cases a with
  | gate name qubits =>
    cases b with
    | gate name' qubits' =>
      obtain rfl : name = name' := hword
      have hops : (operands qubits).toList ++ [';'] = (operands qubits').toList ++ [';'] := by
        simpa [Action.text] using h
      rw [operands_inj ha.2 hb.2 hops]
    | measure => simp [Action.mark] at hmark
    | reset =>
      obtain ⟨type, htype⟩ := ha.1
      exact absurd hword (gateName?_isWord htype).2.1
  | measure qubits target =>
    cases b with
    | measure qubits' target' =>
      simp only [Action.text, String.toList_append, List.append_assoc] at h
      obtain ⟨htarget, hrest⟩ := label_inj ha.2 hb.2 h
      rw [operands_inj ha.1 hb.1 (List.append_cancel_left hrest), bit_eq_of_id htarget]
    | gate | reset => simp [Action.mark] at hmark
  | reset qubits =>
    cases b with
    | reset qubits' =>
      have hops : (operands qubits).toList ++ [';'] = (operands qubits').toList ++ [';'] := by
        simpa [Action.text] using h
      rw [operands_inj ha hb hops]
    | measure => simp [Action.mark] at hmark
    | gate name' qubits' =>
      obtain ⟨type, htype⟩ := hb.1
      exact absurd hword.symm (gateName?_isWord htype).2.1

end Action.Simple

/-! ### Guards and statements -/

/-- The bit of a guard is simple, or the name of its register is a word. -/
def Guard.Simple : Guard → Prop
  | .bit b _ => Qasm.Simple b.id
  | .register name _ => IsWord name

/-- In a comparison the operand is told from the number by the blank behind it. -/
theorem comparison_inj {a b : String} {v w : Nat} (ha : ' ' ∉ a.toList) (hb : ' ' ∉ b.toList)
    (h : a ++ " == " ++ v.repr = b ++ " == " ++ w.repr) : a = b ∧ v = w := by
  have hlist : (a ++ " == " ++ v.repr).toList ++ [')']
      = (b ++ " == " ++ w.repr).toList ++ [')'] := by rw [h]
  simp only [String.toList_append, List.append_assoc, Nat.toList_repr] at hlist
  obtain ⟨hab, -, hrest⟩ := run_inj (p := fun c => c ≠ ' ') (fun c hc e => ha (e ▸ hc))
    (fun c hc e => hb (e ▸ hc)) (not_not.2 rfl) (not_not.2 rfl) hlist
  obtain ⟨hvw, -, -⟩ := number_inj (by decide) (by decide) (List.append_cancel_left hrest)
  exact ⟨String.toList_inj.1 hab, hvw⟩

theorem IsWord.blank_notMem {s : String} (h : IsWord s) : ' ' ∉ s.toList := fun hm =>
  absurd (h.2 _ hm) (by decide)

theorem Simple.blank_notMem_label {u : UnitId} (h : Simple u) : ' ' ∉ u.label.toList := by
  obtain ⟨i, -, hlabel⟩ := h.toList_label
  have hdigits : ' ' ∉ Nat.toDigits 10 i.toNat := fun hm =>
    absurd (Nat.isDigit_of_mem_toDigits (by decide) (by decide) hm) (by decide)
  simp [hlabel, h.1.blank_notMem, hdigits]

/-- A bit shows by its bracket. -/
theorem Simple.label_ne_word {u : UnitId} (h : Simple u) {s : String} (hs : IsWord s) :
    u.label ≠ s := by
  rintro rfl
  obtain ⟨i, -, hlabel⟩ := h.toList_label
  exact absurd (hs.2 '[' (by simp [hlabel])) (by decide)

theorem Simple.eq_of_label {u v : UnitId} (hu : Simple u) (hv : Simple v)
    (h : u.label = v.label) : u = v := by
  have hlist : u.label.toList ++ [] = v.label.toList ++ [] := by rw [h]
  exact (label_inj hu hv hlist).1

theorem Guard.Simple.text_inj {g k : Guard} (hg : g.Simple) (hk : k.Simple)
    (h : g.text = k.text) : g = k := by
  cases g with
  | bit b v =>
    have hb : Qasm.Simple b.id := hg
    cases k with
    | bit b' v' =>
      have hb' : Qasm.Simple b'.id := hk
      obtain ⟨hlabel, hvalue⟩ := comparison_inj hb.blank_notMem_label hb'.blank_notMem_label h
      rw [UInt64.toNat_inj.1 hvalue, bit_eq_of_id (hb.eq_of_label hb' hlabel)]
    | register name' v' =>
      have hname' : IsWord name' := hk
      have hlabel := (comparison_inj hb.blank_notMem_label hname'.blank_notMem h).1
      exact absurd hlabel (hb.label_ne_word hname')
  | register name v =>
    have hname : IsWord name := hg
    cases k with
    | bit b' v' =>
      have hb' : Qasm.Simple b'.id := hk
      have hlabel := (comparison_inj hname.blank_notMem hb'.blank_notMem_label h).1
      exact absurd hlabel.symm (hb'.label_ne_word hname)
    | register name' v' =>
      have hname' : IsWord name' := hk
      obtain ⟨rfl, hvalue⟩ := comparison_inj hname.blank_notMem hname'.blank_notMem h
      rw [UInt64.toNat_inj.1 hvalue]

/-- The units of a statement are simple. -/
def Statement.Simple (s : Statement) : Prop :=
  (∀ guard ∈ s.guard, guard.Simple) ∧ s.action.Simple

theorem Action.Simple.text_ne_block {a : Action} (h : a.Simple) (guard : Guard) :
    a.text ≠ "if (" ++ guard.text ++ ") \x7b" := by
  intro he
  apply h.text_ne_if ('(' :: (guard.text.toList ++ ") \x7b".toList))
  rw [he]
  simp

/-- A guarded statement takes three lines and any other one. -/
theorem Statement.Simple.lines_append_inj {s t : Statement} (hs : s.Simple) (ht : t.Simple)
    {ls ms : List String} (h : s.lines ++ ls = t.lines ++ ms) : s = t ∧ ls = ms := by
  obtain ⟨guard, action⟩ := s
  obtain ⟨guard', action'⟩ := t
  cases guard with
  | none =>
    cases guard' with
    | none =>
      obtain ⟨htext, hrest⟩ := List.cons.inj h
      obtain rfl : action = action' := hs.2.text_inj ht.2 (congrArg String.toList htext)
      exact ⟨rfl, hrest⟩
    | some guard' => exact absurd (List.cons.inj h).1 (hs.2.text_ne_block guard')
  | some guard =>
    cases guard' with
    | none => exact absurd (List.cons.inj h).1.symm (ht.2.text_ne_block guard)
    | some guard' =>
      obtain ⟨hblock, hlines⟩ := List.cons.inj h
      obtain ⟨htext, hend⟩ := List.cons.inj hlines
      have hguard : guard.text = guard'.text := by simpa using hblock
      have haction : action.text = action'.text := by simpa using htext
      obtain rfl := (hs.1 guard rfl).text_inj (ht.1 guard' rfl) hguard
      obtain rfl : action = action' := hs.2.text_inj ht.2 (congrArg String.toList haction)
      exact ⟨rfl, (List.cons.inj hend).2⟩

/-- The lines of statements are taken apart from the front. -/
theorem statements_inj {ss ts : List Statement} (hss : ∀ s ∈ ss, s.Simple)
    (hts : ∀ t ∈ ts, t.Simple) (h : ss.flatMap Statement.lines = ts.flatMap Statement.lines) :
    ss = ts := by
  have hne : ∀ s : Statement, s.lines ≠ [] := by
    rintro ⟨_ | _, _⟩ <;> simp [Statement.lines]
  induction ss generalizing ts with
  | nil =>
    cases ts with
    | nil => rfl
    | cons t ts => exact absurd h.symm (by simp [hne])
  | cons s ss ih =>
    cases ts with
    | nil => exact absurd h (by simp [hne])
    | cons t ts =>
      rw [List.forall_mem_cons] at hss hts
      rw [List.flatMap_cons, List.flatMap_cons] at h
      obtain ⟨rfl, hrest⟩ := hss.1.lines_append_inj hts.1 h
      rw [ih hss.2 hts.2 hrest]

/-! ### Declarations -/

theorem declaration_inj {kind : String} {r r' : Register}
    (h : declaration kind r = declaration kind r') : r = r' := by
  have hlist := congrArg String.toList h
  simp only [declaration, String.toList_append, List.append_assoc, Nat.toList_repr] at hlist
  obtain ⟨hsize, -, hrest⟩ := number_inj (by decide) (by decide)
    (List.append_cancel_left (List.append_cancel_left hlist))
  have hname : r.name.toList = r'.name.toList := by simpa using hrest
  obtain ⟨name, size⟩ := r
  obtain ⟨name', size'⟩ := r'
  rw [Register.mk.injEq]
  exact ⟨String.toList_inj.1 hname, UInt32.toNat_inj.1 hsize⟩

/-- A register of qubits is declared by a line that starts with its kind. -/
def declaresQubits (line : String) : Bool := line.toList.head? == some 'q'

theorem declarations_inj {p p' : Program} (h : p.declarations = p'.declarations) :
    p.qubits = p'.qubits ∧ p.bits = p'.bits := by
  have hqubit : ∀ r, declaresQubits (declaration "qubit" r) = true := by
    intro r
    simp [declaresQubits, declaration]
  have hbit : ∀ r, declaresQubits (declaration "bit" r) = false := by
    intro r
    simp [declaresQubits, declaration]
  have hin : ∀ p : Program, p.declarations.filter declaresQubits
      = p.qubits.map (declaration "qubit") := by
    intro p
    simp [Program.declarations, List.filter_map, Function.comp_def, hqubit, hbit]
  have hout : ∀ p : Program, p.declarations.filter (fun line => !declaresQubits line)
      = p.bits.map (declaration "bit") := by
    intro p
    simp [Program.declarations, List.filter_map, Function.comp_def, hqubit, hbit]
  constructor
  · apply List.map_injective_iff.2 fun r r' => declaration_inj
    rw [← hin, ← hin, h]
  · apply List.map_injective_iff.2 fun r r' => declaration_inj
    rw [← hout, ← hout, h]

/-- The blank line tells declarations from statements. -/
theorem sections_inj {ds ds' ss ss' : List String} (hds : "" ∉ ds) (hds' : "" ∉ ds')
    (hss : "" ∉ ss) (hss' : "" ∉ ss')
    (h : (if ds.isEmpty then [] else ds ++ [""]) ++ ss
      = (if ds'.isEmpty then [] else ds' ++ [""]) ++ ss') : ds = ds' ∧ ss = ss' := by
  have hblank : ∀ {ds ss ss' : List String}, "" ∉ ss → ds ++ [""] ++ ss' ≠ ss := by
    rintro ds ss ss' hss rfl
    simp at hss
  cases ds with
  | nil =>
    cases ds' with
    | nil => exact ⟨rfl, h⟩
    | cons d' ds' => exact absurd h.symm (hblank hss)
  | cons d ds =>
    cases ds' with
    | nil => exact absurd h (hblank hss')
    | cons d' ds' =>
      simp only [List.isEmpty_cons, Bool.false_eq_true, if_false, List.append_assoc,
        List.singleton_append] at h
      obtain ⟨hds_eq, -, hss_eq⟩ := run_inj (p := fun line => line ≠ "")
        (fun line hline e => hds (e ▸ hline)) (fun line hline e => hds' (e ▸ hline)) (by simp)
        (by simp) h
      exact ⟨hds_eq, hss_eq⟩

/-! ### Lines -/

/-- Lines are told apart by the newlines that end them. -/
theorem lines_inj {ls ms : List String} (hls : ∀ l ∈ ls, '\n' ∉ l.toList)
    (hms : ∀ m ∈ ms, '\n' ∉ m.toList)
    (h : String.join (ls.map (· ++ "\n")) = String.join (ms.map (· ++ "\n"))) : ls = ms := by
  replace h := congrArg String.toList h
  have hnewline : "\n".toList = ['\n'] := rfl
  simp only [String.toList_join, List.flatMap_map, String.toList_append, hnewline] at h
  induction ls generalizing ms with
  | nil =>
    cases ms with
    | nil => rfl
    | cons m ms => simp at h
  | cons l ls ih =>
    cases ms with
    | nil => simp at h
    | cons m ms =>
      rw [List.forall_mem_cons] at hls hms
      simp only [List.flatMap_cons, List.append_assoc, List.singleton_append] at h
      obtain ⟨hlm, -, hrest⟩ := run_inj (p := fun c => c ≠ '\n')
        (fun c hc e => hls.1 (e ▸ hc)) (fun c hc e => hms.1 (e ▸ hc)) (by simp) (by simp) h
      rw [String.toList_inj.1 hlm, ih hls.2 hms.2 hrest]

/-- What stands in a statement besides its end: words and the marks between them. -/
def bodyChar (c : Char) : Bool := wordChar c || ['[', ']', ',', ' ', '='].contains c

theorem bodyChar_of_wordChar {c : Char} (h : wordChar c) : bodyChar c := by simp [bodyChar, h]

theorem IsWord.bodyChar {s : String} (h : IsWord s) : ∀ c ∈ s.toList, bodyChar c :=
  fun c hc => bodyChar_of_wordChar (h.2 c hc)

theorem bodyChar_of_mem_digits {n : Nat} {c : Char} (h : c ∈ Nat.toDigits 10 n) : bodyChar c := by
  have hdigit := Nat.isDigit_of_mem_toDigits (by decide) (by decide) h
  exact bodyChar_of_wordChar (by simp [wordChar, Char.isAlphanum, hdigit])

theorem Simple.bodyChar_label {u : UnitId} (h : Simple u) : ∀ c ∈ u.label.toList, bodyChar c := by
  obtain ⟨i, -, hlabel⟩ := h.toList_label
  rw [hlabel, List.forall_mem_append, List.forall_mem_cons, List.forall_mem_append,
    List.forall_mem_singleton]
  exact ⟨h.1.bodyChar, by decide, fun c => bodyChar_of_mem_digits, by decide⟩

theorem bodyChar_operands {qs : List Qubit} (h : ∀ q ∈ qs, Simple q.id) :
    ∀ c ∈ (operands qs).toList, bodyChar c := by
  induction qs with
  | nil => simp [operands]
  | cons q qs ih =>
    rw [List.forall_mem_cons] at h
    rw [toList_operands_cons, List.forall_mem_append]
    refine ⟨h.1.bodyChar_label, ?_⟩
    split_ifs
    · simp
    · rw [List.forall_mem_cons, List.forall_mem_cons]
      exact ⟨by decide, by decide, ih h.2⟩

/-- The text of an action without its end. -/
def Action.body : Action → String
  | .gate name qubits => name ++ " " ++ operands qubits
  | .measure qubits target => target.label ++ " = measure " ++ operands qubits
  | .reset qubits => "reset " ++ operands qubits

theorem Action.text_eq (a : Action) : a.text = a.body ++ ";" := by
  cases a <;> rfl

theorem Action.Simple.bodyChar {a : Action} (h : a.Simple) : ∀ c ∈ a.body.toList, bodyChar c := by
  cases a with
  | gate name qubits =>
    obtain ⟨⟨type, htype⟩, hqubits⟩ := h
    simp only [Action.body, String.toList_append, List.forall_mem_append]
    exact ⟨⟨(gateName?_isWord htype).1.bodyChar, List.all_eq_true.1 (by decide)⟩,
      bodyChar_operands hqubits⟩
  | measure qubits target =>
    simp only [Action.body, String.toList_append, List.forall_mem_append]
    exact ⟨⟨h.2.bodyChar_label, List.all_eq_true.1 (by decide)⟩, bodyChar_operands h.1⟩
  | reset qubits =>
    simp only [Action.body, String.toList_append, List.forall_mem_append]
    exact ⟨List.all_eq_true.1 (by decide), bodyChar_operands h⟩

theorem Guard.Simple.bodyChar {g : Guard} (h : g.Simple) : ∀ c ∈ g.text.toList, bodyChar c := by
  cases g with
  | bit b v =>
    simp only [Guard.text, String.toList_append, List.forall_mem_append, Nat.toList_repr]
    exact ⟨⟨Qasm.Simple.bodyChar_label h, List.all_eq_true.1 (by decide)⟩,
      fun c => bodyChar_of_mem_digits⟩
  | register name v =>
    simp only [Guard.text, String.toList_append, List.forall_mem_append, Nat.toList_repr]
    exact ⟨⟨IsWord.bodyChar h, List.all_eq_true.1 (by decide)⟩, fun c => bodyChar_of_mem_digits⟩

theorem newline_notMem {cs : List Char} (h : ∀ c ∈ cs, bodyChar c) : '\n' ∉ cs := fun hm =>
  absurd (h _ hm) (by decide)

theorem Action.Simple.newline_notMem {a : Action} (h : a.Simple) : '\n' ∉ a.text.toList := by
  have hbody := Qasm.newline_notMem h.bodyChar
  simp [Action.text_eq, hbody]

theorem Action.text_ne_empty (a : Action) : a.text ≠ "" := by
  cases a <;> simp [Action.text]

/-- One line, and not a blank one. -/
def IsLine (s : String) : Prop := s ≠ "" ∧ '\n' ∉ s.toList

theorem Statement.Simple.isLine {s : Statement} (h : s.Simple) : ∀ line ∈ s.lines, IsLine line := by
  obtain ⟨guard, action⟩ := s
  have haction : '\n' ∉ action.text.toList := h.2.newline_notMem
  cases guard with
  | none => simpa [Statement.lines, IsLine, action.text_ne_empty] using haction
  | some guard =>
    have hguard := newline_notMem (h.1 guard rfl).bodyChar
    simp [Statement.lines, IsLine, haction, hguard]

/-- The text of a declaration without its end. -/
def declared (kind : String) (size : Nat) (name : String) : String :=
  kind ++ "[" ++ size.repr ++ "] " ++ name

theorem declaration_eq (kind : String) (r : Register) :
    declaration kind r = declared kind r.size.toNat r.name ++ ";" := rfl

theorem bodyChar_declared {kind name : String} (hkind : IsWord kind) (size : Nat)
    (hname : IsWord name) : ∀ c ∈ (declared kind size name).toList, bodyChar c := by
  simp only [declared, String.toList_append, List.forall_mem_append, Nat.toList_repr]
  refine ⟨⟨⟨⟨hkind.bodyChar, ?_⟩, fun c => bodyChar_of_mem_digits⟩, ?_⟩, hname.bodyChar⟩ <;>
    exact List.all_eq_true.1 (by decide)

theorem declaration_isLine {kind : String} (hkind : IsWord kind) {r : Register}
    (hname : IsWord r.name) : IsLine (declaration kind r) := by
  have hbody := newline_notMem (bodyChar_declared hkind r.size.toNat hname)
  simp [IsLine, declaration_eq, hbody]

/-! ### Programs -/

/-- The names of registers are words, and the units in statements are simple. -/
structure Program.Simple (p : Program) : Prop where
  qubits : ∀ r ∈ p.qubits, IsWord r.name
  bits : ∀ r ∈ p.bits, IsWord r.name
  statements : ∀ s ∈ p.statements, s.Simple

namespace Program.Simple

theorem declarations_isLine {p : Program} (h : p.Simple) :
    ∀ line ∈ p.declarations, IsLine line := by
  intro line hline
  rcases List.mem_append.1 hline with hline | hline
  · obtain ⟨r, hr, rfl⟩ := List.mem_map.1 hline
    exact declaration_isLine (by decide) (h.qubits r hr)
  · obtain ⟨r, hr, rfl⟩ := List.mem_map.1 hline
    exact declaration_isLine (by decide) (h.bits r hr)

theorem statements_isLine {p : Program} (h : p.Simple) :
    ∀ line ∈ p.statements.flatMap Statement.lines, IsLine line := by
  intro line hline
  obtain ⟨s, hs, hline⟩ := List.mem_flatMap.1 hline
  exact (h.statements s hs).isLine line hline

theorem newline_notMem {p : Program} (h : p.Simple) : ∀ line ∈ p.lines, '\n' ∉ line.toList := by
  intro line hline
  rcases List.mem_append.1 hline with hline | hline
  · rcases List.mem_append.1 hline with hline | hline
    · have hhead : ∀ line ∈ ["OPENQASM 3.0;", "include \"stdgates.inc\";", ""],
          '\n' ∉ line.toList := by decide
      exact hhead line hline
    · split at hline
      · exact absurd hline List.not_mem_nil
      · rcases List.mem_append.1 hline with hline | hline
        · exact (h.declarations_isLine line hline).2
        · rw [List.mem_singleton.1 hline]
          decide
  · exact (h.statements_isLine line hline).2

/-- A text is the text of one program at most. -/
theorem text_inj {p p' : Program} (hp : p.Simple) (hp' : p'.Simple) (h : p.text = p'.text) :
    p = p' := by
  -- equal lines, then equal sections, then equal parts of them
  have hlines := lines_inj hp.newline_notMem hp'.newline_notMem h
  rw [Program.lines, Program.lines, List.append_assoc, List.append_assoc] at hlines
  obtain ⟨hds, hss⟩ := sections_inj (fun hm => (hp.declarations_isLine _ hm).1 rfl)
    (fun hm => (hp'.declarations_isLine _ hm).1 rfl) (fun hm => (hp.statements_isLine _ hm).1 rfl)
    (fun hm => (hp'.statements_isLine _ hm).1 rfl) (List.append_cancel_left hlines)
  obtain ⟨hqubits, hbits⟩ := declarations_inj hds
  have hstatements := statements_inj hp.statements hp'.statements hss
  obtain ⟨qubits, bits, statements⟩ := p
  obtain ⟨qubits', bits', statements'⟩ := p'
  rw [Program.mk.injEq]
  exact ⟨hqubits, hbits, hstatements⟩

end Program.Simple

end QuantumCircuit.Qasm
