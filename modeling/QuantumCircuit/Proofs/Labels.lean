import QuantumCircuit.Proofs.ProgramText

/-! A unit is known by its label, whatever its register is called. A name may hold brackets,
commas, blanks and digits, so a label cannot be taken apart from the front. It can be from the
back: the index vector is written with digits, commas and blanks only, so the last opening bracket
is the one behind the name. What follows it is then read from the front, number by number, and
each number is ended by a comma or by the closing bracket; an empty vector shows by the bracket
alone. So an operand in a statement is known if what stands around it is. -/

namespace QuantumCircuit

/-- Runs at the end of a text are told apart from what comes before them. -/
theorem run_inj_back {α : Type} {p : α → Prop} {a b : List α} {x y : α} {r s : List α}
    (ha : ∀ c ∈ a, p c) (hb : ∀ c ∈ b, p c) (hx : ¬ p x) (hy : ¬ p y)
    (h : r ++ x :: a = s ++ y :: b) : r = s ∧ x = y ∧ a = b := by
  have hback : a.reverse ++ x :: r.reverse = b.reverse ++ y :: s.reverse := by
    simpa using congrArg List.reverse h
  have ha' : ∀ c ∈ a.reverse, p c := fun c hc => ha c (List.mem_reverse.1 hc)
  have hb' : ∀ c ∈ b.reverse, p c := fun c hc => hb c (List.mem_reverse.1 hc)
  obtain ⟨hab, hxy, hrs⟩ := Qasm.run_inj ha' hb' hx hy hback
  exact ⟨List.reverse_inj.1 hrs, hxy, List.reverse_inj.1 hab⟩

namespace UnitId

/-! ### Index vectors -/

/-- What stands between the brackets of a label. -/
def indicesText (is : List UInt32) : String := ", ".intercalate (is.map indexText)

/-- An index is ended by the closing bracket if it is the last, and by a comma if not. -/
theorem exists_index_end (i : UInt32) (is : List UInt32) : ∃ (x : Char) (r : List Char),
    x.isDigit = false ∧
    (indicesText (i :: is)).toList ++ [']'] = Nat.toDigits 10 i.toNat ++ x :: r ∧
    (is = [] ∧ x = ']' ∧ r = [] ∨ x = ',' ∧ r = ' ' :: ((indicesText is).toList ++ [']'])) := by
  cases is with
  | nil =>
    refine ⟨']', [], by decide, ?_, .inl ⟨rfl, rfl, rfl⟩⟩
    simp [indicesText, indexText]
  | cons j is =>
    refine ⟨',', _, by decide, ?_, .inr ⟨rfl, rfl⟩⟩
    simp [indicesText, indexText]

theorem indices_cons_ne (i : UInt32) (is : List UInt32) :
    (indicesText (i :: is)).toList ++ [']'] ≠ [']'] := by
  obtain ⟨x, r, -, htext, -⟩ := exists_index_end i is
  obtain ⟨d, ds, hdigits, hd, -⟩ := Json.Numeral.toDigits_eq_cons i.toNat
  rw [htext, hdigits]
  intro h
  obtain ⟨rfl, -⟩ := List.cons.inj h
  exact absurd hd (by decide)

/-- An index vector can be read back from its text. -/
theorem indices_inj {is js : List UInt32}
    (h : (indicesText is).toList ++ [']'] = (indicesText js).toList ++ [']']) : is = js := by
  induction is generalizing js with
  | nil =>
    cases js with
    | nil => rfl
    | cons j js => exact absurd h.symm (indices_cons_ne j js)
  | cons i is ih =>
    cases js with
    | nil => exact absurd h (indices_cons_ne i is)
    | cons j js =>
      obtain ⟨x, r, hx, htext, hend⟩ := exists_index_end i is
      obtain ⟨y, s, hy, htext', hend'⟩ := exists_index_end j js
      rw [htext, htext'] at h
      obtain ⟨hij, hxy, hrs⟩ := Qasm.number_inj hx hy h
      have his : is = js := by
        obtain ⟨rfl, rfl, -⟩ | ⟨rfl, rfl⟩ := hend
        · obtain ⟨rfl, -⟩ | ⟨rfl, -⟩ := hend'
          · rfl
          · exact absurd hxy (by decide)
        · obtain ⟨-, rfl, -⟩ | ⟨-, rfl⟩ := hend'
          · exact absurd hxy (by decide)
          · exact ih (List.cons.inj hrs).2
      rw [UInt32.toNat_inj.1 hij, his]

/-- No bracket opens behind the one that opens the index vector. -/
theorem bracket_notMem_indices (is : List UInt32) :
    ∀ c ∈ (indicesText is).toList ++ [']'], c ≠ '[' := by
  induction is with
  | nil =>
    have hnil : (indicesText []).toList ++ [']'] = [']'] := rfl
    rw [hnil, List.forall_mem_singleton]
    decide
  | cons i is ih =>
    obtain ⟨x, r, -, htext, hend⟩ := exists_index_end i is
    have hdigits : ∀ c ∈ Nat.toDigits 10 i.toNat, c ≠ '[' := by
      rintro c hc rfl
      exact absurd (Nat.isDigit_of_mem_toDigits (by decide) (by decide) hc) (by decide)
    rw [htext, List.forall_mem_append, List.forall_mem_cons]
    obtain ⟨-, rfl, rfl⟩ | ⟨rfl, rfl⟩ := hend
    · exact ⟨hdigits, by decide, List.forall_mem_nil _⟩
    · exact ⟨hdigits, by decide, List.forall_mem_cons.2 ⟨by decide, ih⟩⟩

/-! ### Labels -/

theorem toList_label (u : UnitId) :
    u.label.toList = u.register.toList ++ '[' :: ((indicesText u.index).toList ++ [']']) := by
  simp [label, indicesText]

/-- Units with the same label are the same. -/
theorem label_injective : Function.Injective label := by
  intro u v h
  have htext := congrArg String.toList h
  rw [toList_label, toList_label] at htext
  -- both texts are cut at their last opening bracket
  obtain ⟨hregister, -, hindex⟩ := run_inj_back (bracket_notMem_indices u.index)
    (bracket_notMem_indices v.index) (not_not.2 rfl) (not_not.2 rfl) htext
  cases u
  cases v
  exact congrArg₂ mk (String.toList_inj.1 hregister) (indices_inj hindex)

end UnitId

theorem Qubit.label_injective : Function.Injective Qubit.label := fun _ _ h =>
  Qasm.qubit_eq_of_id (UnitId.label_injective h)

theorem Bit.label_injective : Function.Injective Bit.label := fun _ _ h =>
  Qasm.bit_eq_of_id (UnitId.label_injective h)

namespace Qasm

/-! ### Operands in statements -/

/-- An operand is written between what the others are written as. -/
theorem exists_around_operand (before after : List Qubit) : ∃ start rest : List Char,
    ∀ q, (operands (before ++ q :: after)).toList = start ++ (q.label.toList ++ rest) := by
  induction before with
  | nil => exact ⟨[], _, fun q => toList_operands_cons q after⟩
  | cons p before ih =>
    obtain ⟨start, rest, hrest⟩ := ih
    refine ⟨p.label.toList ++ (',' :: ' ' :: start), rest, fun q => ?_⟩
    rw [List.cons_append, toList_operands_cons, if_neg (by simp), hrest]
    simp

/-- The same action on other qubits. -/
def Action.on : Action → List Qubit → Action
  | .gate name _, qubits => .gate name qubits
  | .measure _ target, qubits => .measure qubits target
  | .reset _, qubits => .reset qubits

theorem Action.exists_around_operands (a : Action) : ∃ start : List Char,
    ∀ qubits, (a.on qubits).text.toList = start ++ ((operands qubits).toList ++ [';']) := by
  cases a with
  | gate name _ => exact ⟨(name ++ " ").toList, fun qubits => by simp [Action.on, Action.text]⟩
  | measure _ target =>
    exact ⟨(target.label ++ " = measure ").toList, fun qubits => by simp [Action.on, Action.text]⟩
  | reset _ => exact ⟨"reset ".toList, fun qubits => by simp [Action.on, Action.text]⟩

/-- Statements that differ in one operand have different texts. -/
theorem Action.operand_inj (a : Action) (before after : List Qubit) {q r : Qubit}
    (h : (a.on (before ++ q :: after)).text = (a.on (before ++ r :: after)).text) : q = r := by
  obtain ⟨start, hstart⟩ := a.exists_around_operands
  obtain ⟨first, rest, haround⟩ := exists_around_operand before after
  have hlist := congrArg String.toList h
  rw [hstart, hstart, haround, haround] at hlist
  have hlabel := List.append_cancel_left (List.append_cancel_right (List.append_cancel_left hlist))
  exact Qubit.label_injective (String.toList_inj.1 (List.append_cancel_right hlabel))

theorem Action.target_inj (qubits : List Qubit) {b d : Bit}
    (h : (Action.measure qubits b).text = (Action.measure qubits d).text) : b = d := by
  have hlist := congrArg String.toList h
  simp only [Action.text, String.toList_append, List.append_assoc] at hlist
  exact Bit.label_injective (String.toList_inj.1 (List.append_cancel_right hlist))

theorem Guard.bit_inj (value : UInt64) {b d : Bit}
    (h : (Guard.bit b value).text = (Guard.bit d value).text) : b = d := by
  have hlist := congrArg String.toList h
  simp only [Guard.text, String.toList_append, List.append_assoc] at hlist
  exact Bit.label_injective (String.toList_inj.1 (List.append_cancel_right hlist))

end Qasm

end QuantumCircuit
