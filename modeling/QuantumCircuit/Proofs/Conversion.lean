import QuantumCircuit.CommandLine.Run
import QuantumCircuit.Proofs.Nesting
import QuantumCircuit.Proofs.RoundTrip

/-! Converting documents to their own format. Whatever text a circuit was read from, the text
that is written for it is read as the same circuit and is written again as it is, up to the
limit on nesting. Writing lists a pair for every qubit, which an accepted text may have left
out; so the text that is written can open one container more than the one that was read, and
next to the limit it is then refused. Nothing else can go wrong. -/

namespace QuantumCircuit

open CommandLine

/-! ### Line ends -/

/-- The text of a valid circuit may be followed by a line end. -/
theorem Circuit.Valid.ofText_text_newline {c : Circuit} (h : c.Valid) (indented : Bool) :
    Circuit.ofText (c.text indented ++ "\n") =
      if c.document.json.depth ≤ Json.depthLimit then .ok c
      else .error (.unreadable .malformed) := by
  have hplain := c.document.json_plain
  have hblank : ∀ x ∈ "\n".toList, Json.isBlank x := by
    intro x hx
    obtain rfl : x = '\n' := by simpa using hx
    rfl
  have hline := hplain.ofText_text_append indented "\n" hblank
  -- only the tree of a text matters, and a line end does not change it
  have hsame : Circuit.ofText (c.text indented ++ "\n") = Circuit.ofText (c.text indented) := by
    unfold Circuit.ofText Document.ofText Json.fromText Json.readText Circuit.text
    rw [hline, hplain.ofText_text]
  rw [hsame, h.ofText_text]

theorem Document.getLast?_text (d : Document) (indented : Bool) :
    (d.json.text indented).toList.getLast? = some '\x7d' := by
  rw [d.json_plain.toList_text]
  cases d
  rw [Document.json]
  exact Json.getLast?_spell_object _ _ _

/-- A file gets what would be printed. -/
theorem filed_eq_printed (text : String) : filed text = printed text := by
  rw [filed, printed, String.push_eq_append]
  cases endsLine text <;> rfl

theorem printed_text (c : Circuit) (indented : Bool) :
    printed (c.text indented) = c.text indented ++ "\n" := by
  rw [printed, endsLine, Circuit.text, Document.getLast?_text, if_neg (by decide)]

/-! ### Runs -/

/-- Whatever files there are, converting one that holds `text` ends well; it prints `written`,
or writes it to the file that is asked for. -/
def Converts (indented : Bool) (text written : String) : Prop :=
  ∀ (files : Files) (input : String), files.readText input = .ok text →
    (Invocation.convert input ⟨.json, indented, none⟩).run Files.disk files =
        (⟨0, written, ""⟩, files) ∧
      ∀ (path : String) (files' : Files), files.put path written.toUTF8 = .ok files' →
        (Invocation.convert input ⟨.json, indented, some path⟩).run Files.disk files =
          (⟨0, "", "✓ Converted " ++ input ++ " -> " ++ path ++ "\n"⟩, files')

theorem Files.holds_of_readText {files : Files} {path text : String}
    (h : files.readText path = .ok text) : files.holds path = true := by
  obtain ⟨bytes, hget, -⟩ := bind_eq_ok_iff.1 h
  rw [Files.holds, hget]

theorem loadFile_of_readText {files : Files} {input text : String} {c : Circuit}
    (hread : files.readText input = .ok text) (hc : Circuit.ofText text = .ok c) :
    loadFile Files.disk input files = (.ok c, files) := by
  have hholds := Files.holds_of_readText hread
  simp only [loadFile, Files.disk, bind, StateT.bind, hholds, if_true, hread, hc]
  rfl

theorem write_of_put {files files' : Files} {path text : String}
    (h : files.put path text.toUTF8 = .ok files') :
    Files.disk.write path text files = (.ok (), files') := by
  simp only [Files.disk, h]

theorem converts_of_ofText {text : String} {c : Circuit} (h : Circuit.ofText text = .ok c)
    (indented : Bool) : Converts indented text (c.text indented ++ "\n") := by
  intro files input hread
  have hload := loadFile_of_readText hread h
  constructor
  · simp only [Invocation.run, deliver, bind, StateT.bind, hload, Except.bind, render,
      printed_text]
    rfl
  · intro path files' hput
    simp only [Invocation.run, deliver, bind, StateT.bind, hload, Except.bind, render,
      filed_eq_printed, printed_text, write_of_put hput]
    rfl

/-! ### Converting twice -/

/-- What was read once is written in a form that stays. The document that is written opens one
container more than a text may have, at most. If it keeps to the limit, its text is read as the
same circuit and is written again as it is; if not, it is refused as not well-formed. -/
theorem Circuit.convert_again {text : String} {c : Circuit} (h : Circuit.ofText text = .ok c)
    (indented : Bool) :
    Converts indented text (c.text indented ++ "\n") ∧
      c.document.json.depth ≤ 128 ∧
      (c.document.json.depth ≤ 127 →
        Circuit.ofText (c.text indented ++ "\n") = .ok c ∧
          Converts indented (c.text indented ++ "\n") (c.text indented ++ "\n")) ∧
      (c.document.json.depth = 128 →
        Circuit.ofText (c.text indented ++ "\n") = .error (.unreadable .malformed)) := by
  obtain ⟨d, -, hload⟩ := Circuit.ofReading_eq_ok_iff.1 h
  have hagain := (Document.load_valid d hload).ofText_text_newline indented
  rw [Json.depthLimit] at hagain
  refine ⟨converts_of_ofText h indented, Circuit.depth_document_le h, ?_, ?_⟩
  · intro hdepth
    rw [if_pos hdepth] at hagain
    exact ⟨hagain, converts_of_ofText hagain indented⟩
  · intro hdepth
    rw [if_neg (by omega)] at hagain
    exact hagain

/-- A document of one qubit whose permutation lists nothing. -/
def Document.unlisted (bits : List UnitId) (commands : List Document.Command) : Document :=
  ⟨bits, commands, [], none, "0.0", [⟨"q", [0]⟩]⟩

def Document.Op.boxOf (d : Document) : Document.Op :=
  ⟨some ⟨d, ⟨0⟩, .circBox⟩, none, .circBox⟩

/-- An empty circuit inside `n` boxes. -/
def Document.nested : Nat → Document
  | 0 => .unlisted [] []
  | n + 1 => .unlisted [] [⟨[⟨"q", [0]⟩], .boxOf (nested n), none⟩]

/-- The bits `c[0]`, …, `c[k - 1]`. -/
def Document.bitsBelow (k : Nat) : List UnitId :=
  (List.range k).map fun i => ⟨"c", [UInt32.ofNat i]⟩

/-- `n` boxes inside `k` more, each of which is guarded by a bit of its own. -/
def Document.guarded (n : Nat) : Nat → Document
  | 0 => nested n
  | k + 1 => .unlisted (bitsBelow (k + 1))
      [⟨⟨"c", [UInt32.ofNat k]⟩ :: ⟨"q", [0]⟩ :: bitsBelow k,
        ⟨none, some ⟨.boxOf (guarded n k), 1, 1⟩, .conditional⟩, none⟩]

/-- The text of a document that describes a circuit is read as that circuit. -/
theorem Document.exists_ofText {d : Document} (hdepth : d.json.depth ≤ Json.depthLimit)
    (hok : d.load.isOk = true) :
    ∃ c, Circuit.ofText (d.json.text false) = .ok c ∧ c.Valid ∧ c.document = d.normal := by
  obtain ⟨c, hc⟩ := exists_of_isOk hok
  refine ⟨c, Circuit.ofReading_eq_ok_iff.2 ⟨d, ?_, hc⟩, Document.load_valid d hc,
    Document.document_of_load d hc⟩
  rw [Document.ofText_text, Json.inRoom, if_pos hdepth]

theorem Circuit.convert_again_nested :
    ∃ c, Circuit.ofText ((Document.nested 2).json.text false) = .ok c ∧
      Circuit.ofText (c.text true ++ "\n") = .ok c ∧
      Converts true (c.text true ++ "\n") (c.text true ++ "\n") := by
  obtain ⟨c, hc, -, hdoc⟩ :=
    Document.exists_ofText (d := .nested 2) (by decide +kernel) (by decide +kernel)
  have hdepth : c.document.json.depth ≤ 127 := by
    rw [hdoc]
    decide +kernel
  exact ⟨c, hc, (Circuit.convert_again hc true).2.2.1 hdepth⟩

/-- The limit can be reached without the pairs of the innermost circuit. This text is read, and
what is written for it is not. -/
theorem Circuit.unreadable_after_guarded :
    ∃ c, Circuit.ofText ((Document.guarded 19 4).json.text false) = .ok c ∧
      ∀ indented, Circuit.ofText (c.text indented ++ "\n") = .error (.unreadable .malformed) := by
  obtain ⟨c, hc, hvalid, hdoc⟩ :=
    Document.exists_ofText (d := .guarded 19 4) (by decide +kernel) (by decide +kernel)
  refine ⟨c, hc, fun indented => ?_⟩
  have hdepth : ¬ c.document.json.depth ≤ Json.depthLimit := by
    rw [hdoc]
    decide +kernel
  rw [hvalid.ofText_text_newline, if_neg hdepth]

end QuantumCircuit
