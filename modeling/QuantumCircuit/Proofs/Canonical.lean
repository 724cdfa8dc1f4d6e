import QuantumCircuit.Proofs.KeyOrder
import QuantumCircuit.Proofs.NormalForm
import QuantumCircuit.Proofs.RoundTrip

/-! The document of a circuit stands for the circuit without loss, whatever the nesting. As a
value it can always be read back, because only texts have a limit on their depth. As a text it
may be too deep for that and determines the circuit all the same: the scan of the text gives
back the whole tree, and a tree with enough room around it is read as the document. So the text
is a name for the circuit, and the identifier of a box is made from that name. -/

namespace QuantumCircuit

open Json

/-! ### Values -/

/-- A written document is read from its value, which brings the room it needs. -/
theorem Document.ofValue_json (d : Document) : Document.ofValue d.json = .ok d := by
  rw [Document.ofValue, Json.fromValue, d.reads, inRoom, if_pos (Nat.le_refl _)]
  rfl

theorem Circuit.value_eq (c : Circuit) : c.value = c.document.json :=
  c.document.json_ordered.sorted_eq

/-- A circuit comes back from its document and from the value of its document, however deep the
boxes inside it are. -/
theorem Reachable.document_round_trip {c : Circuit} (h : Reachable c) :
    c.document.load = .ok c ∧ Circuit.ofValue c.value = .ok c := by
  have hload := h.valid.load_document
  refine ⟨hload, ?_⟩
  rw [Circuit.ofValue, Circuit.value_eq, Document.ofValue_json]
  exact hload

/-- Twenty-five boxes inside each other are too deep for a text, and still come back. -/
theorem Reachable.document_round_trip_boxed :
    127 < (Circuit.boxed 25).document.json.depth ∧
      (Circuit.boxed 25).document.load = .ok (.boxed 25) ∧
      Circuit.ofValue (Circuit.boxed 25).value = .ok (.boxed 25) :=
  ⟨by decide +kernel, (Reachable.boxed 25).document_round_trip⟩

/-! ### Texts -/

/-- The text of a document determines it, in either layout. -/
theorem Document.text_injective {indented : Bool} {d e : Document}
    (h : d.json.text indented = e.json.text indented) : d = e := by
  have htree : d.json.tree = e.json.tree := by
    have hd := d.json_plain.ofText_text indented
    have he := e.json_plain.ofText_text indented
    rw [h, he] at hd
    exact congrArg Prod.fst hd.symm
  -- in a room that is large enough for both, one tree is read as both documents
  have hd := d.reads (max d.json.depth e.json.depth)
  have he := e.reads (max d.json.depth e.json.depth)
  rw [inRoom, if_pos (Nat.le_max_left _ _), htree] at hd
  rw [inRoom, if_pos (Nat.le_max_right _ _), hd] at he
  exact Except.ok.inj he

namespace Circuit

theorem Valid.text_eq_iff {c d : Circuit} (hc : c.Valid) (hd : d.Valid) (indented : Bool) :
    c.text indented = d.text indented ↔ c = d := by
  constructor
  · intro h
    have hload := hc.load_document
    rw [Document.text_injective h, hd.load_document] at hload
    exact (Except.ok.inj hload).symm
  · rintro rfl
    rfl

/-- The bytes whose digest is the identifier of a box that holds the circuit. -/
def digested (c : Circuit) : List UInt8 :=
  Uuid.objectSpace.bytes ++ (c.text false).toUTF8.data.toList

theorem boxId_eq (c : Circuit) :
    c.boxId = .markNamed (.ofBytes ((Sha1.digest c.digested).take 16)) := rfl

theorem text_eq_of_digested {c d : Circuit} (h : c.digested = d.digested) :
    c.text false = d.text false := by
  have hbytes := List.append_cancel_left h
  exact String.toByteArray_inj.1 (ByteArray.ext (Array.toList_inj.1 hbytes))

/-! ### Permutations -/

/-- A permutation is kept in one form only: where each qubit ends up determines it. -/
theorem Valid.permutation_congr {c d : Circuit} (hc : c.Valid) (hd : d.Valid)
    (hq : c.qubits = d.qubits) (h : ∀ q ∈ c.qubits, c.image q = d.image q) :
    c.permutation = d.permutation := by
  have himplicit : c.implicitPermutation = d.implicitPermutation := by
    rw [implicitPermutation, implicitPermutation, ← hq]
    exact List.map_congr_left fun q hm => by rw [h q hm]
  rw [← hc.movedPairs_implicit, ← hd.movedPairs_implicit, himplicit, hq]

/-- Pairs that are accepted send each qubit where they say, and do nothing else. -/
theorem Valid.image_of_setPermutation {c c' : Circuit} (hc : c.Valid)
    {pairs : List (Qubit × Qubit)} (h : (Build.setPermutation pairs).run c = .ok () c')
    {q : Qubit} (hq : q ∈ c.qubits) : c'.image q = (pairs.lookup q).getD q := by
  obtain ⟨hcheck, rfl⟩ := Build.setPermutation_run_eq_ok_iff.1 h
  have hpairs := (hc.indexed.checkPermutation_eq_ok_iff pairs).1 hcheck
  exact getD_lookup_movedPairs hpairs.sources_nodup hc.indexed.qubits_nodup hq

theorem Valid.setPermutation_eq_iff {c c₁ c₂ : Circuit} (hc : c.Valid)
    {pairs₁ pairs₂ : List (Qubit × Qubit)}
    (h₁ : (Build.setPermutation pairs₁).run c = .ok () c₁)
    (h₂ : (Build.setPermutation pairs₂).run c = .ok () c₂) :
    c₁ = c₂ ↔ ∀ q ∈ c.qubits, (pairs₁.lookup q).getD q = (pairs₂.lookup q).getD q := by
  have hv₁ : c₁.Valid := ((Build.setPermutation_makes pairs₁).of_ok h₁).valid hc nofun
  have hv₂ : c₂.Valid := ((Build.setPermutation_makes pairs₂).of_ok h₂).valid hc nofun
  have himage₁ : ∀ q ∈ c.qubits, _ := fun q hq => hc.image_of_setPermutation h₁ hq
  have himage₂ : ∀ q ∈ c.qubits, _ := fun q hq => hc.image_of_setPermutation h₂ hq
  obtain ⟨-, rfl⟩ := Build.setPermutation_run_eq_ok_iff.1 h₁
  obtain ⟨-, rfl⟩ := Build.setPermutation_run_eq_ok_iff.1 h₂
  constructor
  · intro h q hq
    rw [← himage₁ q hq, ← himage₂ q hq, h]
  · intro h
    have hkept := hv₁.permutation_congr hv₂ rfl fun q hq => by
      rw [himage₁ q hq, himage₂ q hq, h q hq]
    dsimp only at hkept
    rw [hkept]

end Circuit

/-- Two circuits have the same text on one line, and so the same bytes from whose digest the
identifier of their box is made, exactly when they are equal. In what order the pairs of a
permutation are listed and whether they list a qubit that stays makes no difference. -/
theorem Reachable.text_canonical {c d : Circuit} (hc : Reachable c) (hd : Reachable d) :
    (c.text false = d.text false ↔ c = d) ∧
      c.boxId = .markNamed (.ofBytes ((Sha1.digest c.digested).take 16)) ∧
      (c.digested = d.digested ↔ c = d) ∧
      ∀ (pairs₁ pairs₂ : List (Qubit × Qubit)) (c₁ c₂ : Circuit),
        (Build.setPermutation pairs₁).run c = .ok () c₁ →
        (Build.setPermutation pairs₂).run c = .ok () c₂ →
        (c₁.text false = c₂.text false ↔
          ∀ q ∈ c.qubits, (pairs₁.lookup q).getD q = (pairs₂.lookup q).getD q) ∧
        ((∀ q ∈ c.qubits, (pairs₁.lookup q).getD q = (pairs₂.lookup q).getD q) →
          c₁.boxId = c₂.boxId) := by
  have htext := hc.valid.text_eq_iff hd.valid false
  have hdigested : c.digested = d.digested ↔ c = d :=
    ⟨fun h => htext.1 (Circuit.text_eq_of_digested h), fun h => by rw [h]⟩
  refine ⟨htext, c.boxId_eq, hdigested, ?_⟩
  intro pairs₁ pairs₂ c₁ c₂ h₁ h₂
  have hv₁ : c₁.Valid := ((Build.setPermutation_makes pairs₁).of_ok h₁).valid hc.valid nofun
  have hv₂ : c₂.Valid := ((Build.setPermutation_makes pairs₂).of_ok h₂).valid hc.valid nofun
  have heq := hc.valid.setPermutation_eq_iff h₁ h₂
  exact ⟨(hv₁.text_eq_iff hv₂ false).trans heq, fun h => by rw [heq.2 h]⟩

/-- Three qubits, the first two of which change places. -/
def Circuit.exchange : Circuit :=
  (Call.setPermutation [(.ofIndex 0, .ofIndex 1), (.ofIndex 1, .ofIndex 0)]).leaves (.withQubits 3)

theorem Reachable.exchange : Reachable .exchange :=
  .call _ (.withQubits 3) fun _ hb => by cases hb

/-- An exchange differs in its text from the identity, and not from the same exchange with its
pairs in another order and the third qubit listed as well. -/
theorem Reachable.text_canonical_exchange :
    Circuit.exchange.text false ≠ (Circuit.withQubits 3).text false ∧
      Circuit.exchange.digested ≠ (Circuit.withQubits 3).digested ∧
      ∃ c, (Build.setPermutation [(.ofIndex 2, .ofIndex 2), (.ofIndex 1, .ofIndex 0),
          (.ofIndex 0, .ofIndex 1)]).run (.withQubits 3) = .ok () c ∧
        Circuit.exchange.text false = c.text false ∧ Circuit.exchange.boxId = c.boxId := by
  have hne : Circuit.exchange ≠ .withQubits 3 := by
    intro h
    have hsome : Circuit.exchange.hasIdentityPermutation = false := rfl
    rw [h] at hsome
    cases hsome
  obtain ⟨htext, -, hdigested, -⟩ := Reachable.exchange.text_canonical (.withQubits 3)
  obtain ⟨-, -, -, hentered⟩ := (Reachable.withQubits 3).text_canonical (.withQubits 3)
  obtain ⟨hsame, hid⟩ := hentered [(.ofIndex 0, .ofIndex 1), (.ofIndex 1, .ofIndex 0)]
    [(.ofIndex 2, .ofIndex 2), (.ofIndex 1, .ofIndex 0), (.ofIndex 0, .ofIndex 1)] .exchange _
    rfl rfl
  exact ⟨mt htext.1 hne, mt hdigested.1 hne, _, rfl, hsame.2 (by decide +kernel),
    hid (by decide +kernel)⟩

end QuantumCircuit
