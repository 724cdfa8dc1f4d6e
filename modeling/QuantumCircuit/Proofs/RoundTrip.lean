import QuantumCircuit.Proofs.Loading

/-! A circuit comes back from its own text. The only thing that can stand in the way is the
nesting: a text may have 127 arrays and objects open at once, and boxes inside boxes take five
of them each. -/

namespace QuantumCircuit

theorem Circuit.Valid.ofText_text {c : Circuit} (h : c.Valid) (indented : Bool) :
    Circuit.ofText (c.text indented) =
      if c.document.json.depth ≤ Json.depthLimit then .ok c
      else .error (.unreadable .malformed) := by
  rw [Circuit.ofText, Circuit.text, Document.ofText_text, Json.inRoom]
  by_cases hd : c.document.json.depth ≤ Json.depthLimit
  · rw [if_pos hd, if_pos hd]
    exact h.load_document
  · rw [if_neg hd, if_neg hd]
    rfl

/-- Reading the text of a circuit gives the circuit, in either layout, if no more than 127
arrays and objects are open at once; else the text is refused as not well-formed. -/
theorem Reachable.text_round_trip {c : Circuit} (h : Reachable c) (indented : Bool) :
    (c.document.json.depth ≤ 127 → Circuit.ofText (c.text indented) = .ok c) ∧
      (127 < c.document.json.depth →
        Circuit.ofText (c.text indented) = .error (.unreadable .malformed)) := by
  have hread := h.valid.ofText_text indented
  constructor
  · intro hd
    rw [hread, Json.depthLimit, if_pos hd]
  · intro hd
    rw [hread, Json.depthLimit, if_neg (Nat.not_le.2 hd)]

/-- A flip of one qubit, inside `n` boxes. -/
def Circuit.boxed : Nat → Circuit
  | 0 => .flip
  | n + 1 => (Call.box ⟨0⟩ (boxed n) [.ofIndex 0] none).leaves (.withQubits 1)

theorem Reachable.boxed (n : Nat) : Reachable (.boxed n) := by
  induction n with
  | zero => exact .call (.gate .x [.ofIndex 0]) (.withQubits 1) fun body hb => by cases hb
  | succ n ih =>
    refine .call (.box ⟨0⟩ (.boxed n) [.ofIndex 0] none) (.withQubits 1) fun body hb => ?_
    cases hb
    exact ih

/-- A guarded box and an exchange of qubits come back; so do 24 boxes inside each other, and
with one more the text is too deep. -/
theorem Reachable.text_round_trip_boxed :
    (Circuit.guardedFlip.document.json.depth = 13 ∧
      Circuit.ofText (Circuit.guardedFlip.text true) = .ok .guardedFlip) ∧
    ((Circuit.boxed 24).document.json.depth = 126 ∧
      Circuit.ofText ((Circuit.boxed 24).text true) = .ok (.boxed 24)) ∧
    (Circuit.boxed 25).document.json.depth = 131 ∧
      Circuit.ofText ((Circuit.boxed 25).text false) = .error (.unreadable .malformed) := by
  have hflip : Circuit.guardedFlip.document.json.depth = 13 := by decide +kernel
  have hin : (Circuit.boxed 24).document.json.depth = 126 := by decide +kernel
  have hout : (Circuit.boxed 25).document.json.depth = 131 := by decide +kernel
  exact ⟨⟨hflip, (Reachable.guardedFlip.text_round_trip true).1 (by omega)⟩,
    ⟨hin, ((Reachable.boxed 24).text_round_trip true).1 (by omega)⟩,
    hout, ((Reachable.boxed 25).text_round_trip false).2 (by omega)⟩

end QuantumCircuit
