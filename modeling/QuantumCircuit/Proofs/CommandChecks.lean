import Mathlib.Data.List.Induction
import QuantumCircuit.Proofs.Invariant

/-! What happens to a command that is added. Its checks come in a fixed order: the type of a gate,
the number of qubits, the number of bits written, the qubits from left to right, and then the bits
from left to right, those of the condition first. The first check that fails decides. Among units
it names the leftmost one that is not declared or repeats one before it; no unit can be both, since
the one it repeats would have been named already. -/

namespace QuantumCircuit

/-! ### Units from left to right -/

section Units

variable {α : Type}

/-- The units are declared, and none comes twice. -/
def UnitsFit (declared us : List α) : Prop := (∀ u ∈ us, u ∈ declared) ∧ us.Nodup

/-- The leftmost of the units that is not declared or repeats one before it. -/
def FirstOffender (declared us : List α) (u : α) : Prop :=
  ∃ before after, us = before ++ u :: after ∧ UnitsFit declared before ∧ (u ∉ declared ∨ u ∈ before)

theorem unitsFit_concat_iff {declared us : List α} {u : α} :
    UnitsFit declared (us ++ [u]) ↔ UnitsFit declared us ∧ u ∈ declared ∧ u ∉ us := by
  simp only [UnitsFit, List.forall_mem_append, List.forall_mem_singleton]
  rw [List.nodup_append_comm, List.singleton_append, List.nodup_cons]
  constructor
  · rintro ⟨⟨hd, hu⟩, hout, hn⟩
    exact ⟨⟨hd, hn⟩, hu, hout⟩
  · rintro ⟨⟨hd, hn⟩, hu, hout⟩
    exact ⟨⟨hd, hu⟩, hout, hn⟩

theorem FirstOffender.concat {declared us : List α} {u : α} (h : FirstOffender declared us u)
    (v : α) : FirstOffender declared (us ++ [v]) u := by
  obtain ⟨before, after, rfl, hfits, hu⟩ := h
  exact ⟨before, after ++ [v], by simp, hfits, hu⟩

theorem unitsFit_or_firstOffender (declared us : List α) :
    UnitsFit declared us ∨ ∃ u, FirstOffender declared us u := by
  induction us using List.reverseRecOn with
  | nil => exact .inl ⟨by simp, .nil⟩
  | append_singleton us v ih =>
    rcases ih with hfits | ⟨u, hu⟩
    · by_cases hv : v ∈ declared ∧ v ∉ us
      · exact .inl (unitsFit_concat_iff.2 ⟨hfits, hv⟩)
      · refine .inr ⟨v, us, [], rfl, hfits, ?_⟩
        rw [not_and_or, not_not] at hv
        exact hv
    · exact .inr ⟨u, hu.concat v⟩

variable [Ord α] [Std.TransOrd α] {set : Std.ExtTreeSet α} (missing repeated : α → Error)

/-- Units that pass the check are passed over. -/
theorem checkUnits_append {seen : Std.ExtTreeSet α} {before : List α}
    (h : checkUnits set missing repeated seen before = .ok ()) (us : List α) :
    checkUnits set missing repeated seen (before ++ us) =
      checkUnits set missing repeated (seen.insertMany before) us := by
  induction before generalizing seen with
  | nil => simp
  | cons v before ih =>
    rw [checkUnits] at h
    rw [List.cons_append, checkUnits, Std.ExtTreeSet.insertMany_cons]
    split_ifs at h ⊢
    exact ih h

variable [Std.LawfulEqOrd α] {declared : List α} (hset : ∀ u, u ∈ set ↔ u ∈ declared)

include hset

theorem checkUnits_eq_ok_iff_unitsFit (us : List α) :
    checkUnits set missing repeated ∅ us = .ok () ↔ UnitsFit declared us := by
  simp [checkUnits_eq_ok_iff, hset, UnitsFit]

theorem FirstOffender.checkUnits_missing {us : List α} {u : α}
    (h : FirstOffender declared us u) (hu : u ∉ declared) :
    checkUnits set missing repeated ∅ us = .error (missing u) := by
  obtain ⟨before, after, rfl, hfits, -⟩ := h
  have hbefore := (checkUnits_eq_ok_iff_unitsFit missing repeated hset before).2 hfits
  rw [checkUnits_append missing repeated hbefore, checkUnits, if_pos (by rwa [hset])]

theorem FirstOffender.checkUnits_repeated {us : List α} {u : α}
    (h : FirstOffender declared us u) (hu : u ∈ declared) :
    checkUnits set missing repeated ∅ us = .error (repeated u) := by
  obtain ⟨before, after, rfl, hfits, hoffends⟩ := h
  have hbefore := (checkUnits_eq_ok_iff_unitsFit missing repeated hset before).2 hfits
  have hseen : u ∈ (∅ : Std.ExtTreeSet α).insertMany before := by
    rw [mem_set_insertMany]
    exact .inr (hoffends.resolve_left (not_not.2 hu))
  rw [checkUnits_append missing repeated hbefore, checkUnits, if_neg (by rwa [hset, not_not]),
    if_pos hseen]

end Units

/-! ### Commands -/

namespace Operation

/-- The types that only look like gates. -/
theorem admissible_iff (op : Operation) : op.Admissible ↔
    ∀ type ∈ [OpType.measure, .reset, .circBox, .conditional], op ≠ .gate type := by
  cases op with
  | gate type => cases type <;> simp [Admissible, OpType.isGate]
  | _ => simp [Admissible]

end Operation

namespace Command

/-- The operation is what it says, and has as many qubits and bits as it takes. -/
structure Shaped (command : Command) : Prop where
  admissible : command.op.Admissible
  qubit_count : command.qubits.length = command.op.qubitCount
  bit_count : command.bits.length = command.op.bitCount

/-- Why the command is refused where these units are declared: the first of its faults. -/
inductive Refused (command : Command) (qubits : List Qubit) (bits : List Bit) : Error → Prop
  | notAGate {type : OpType} (hop : command.op = .gate type)
      (htype : type ∈ [OpType.measure, .reset, .circBox, .conditional]) :
      Refused command qubits bits (.unsupportedOp (.notAGate type))
  | qubitCount (hop : command.op.Admissible)
      (hq : command.qubits.length ≠ command.op.qubitCount) :
      Refused command qubits bits
        (.qubitCountMismatch command.name command.op.qubitCount command.qubits.length)
  | bitCount (hop : command.op.Admissible) (hq : command.qubits.length = command.op.qubitCount)
      (hb : command.bits.length ≠ command.op.bitCount) :
      Refused command qubits bits
        (.bitCountMismatch command.name command.op.bitCount command.bits.length)
  | missingQubit (hshaped : command.Shaped) {q : Qubit}
      (hfirst : FirstOffender qubits command.qubits q) (hq : q ∉ qubits) :
      Refused command qubits bits (.qubitNotFound q command.name)
  | repeatedQubit (hshaped : command.Shaped) {q : Qubit}
      (hfirst : FirstOffender qubits command.qubits q) (hq : q ∈ qubits) :
      Refused command qubits bits (.duplicateQubit q command.name)
  | missingBit (hshaped : command.Shaped) (hqubits : UnitsFit qubits command.qubits) {b : Bit}
      (hfirst : FirstOffender bits command.allBits b) (hb : b ∉ bits) :
      Refused command qubits bits (.bitNotFound b command.name)
  | repeatedBit (hshaped : command.Shaped) (hqubits : UnitsFit qubits command.qubits) {b : Bit}
      (hfirst : FirstOffender bits command.allBits b) (hb : b ∈ bits) :
      Refused command qubits bits (.duplicateBit b command.name)

/-- A command that has no fault has all that is asked of it. -/
theorem unitsFit_or_refused (command : Command) (qubits : List Qubit) (bits : List Bit) :
    (command.Shaped ∧ UnitsFit qubits command.qubits ∧ UnitsFit bits command.allBits) ∨
      ∃ e, command.Refused qubits bits e := by
  by_cases hop : command.op.Admissible
  swap
  · rw [Operation.admissible_iff] at hop
    simp only [not_forall, ne_eq, not_not] at hop
    obtain ⟨type, htype, hgate⟩ := hop
    exact .inr ⟨_, .notAGate hgate htype⟩
  by_cases hq : command.qubits.length = command.op.qubitCount
  swap
  · exact .inr ⟨_, .qubitCount hop hq⟩
  by_cases hb : command.bits.length = command.op.bitCount
  swap
  · exact .inr ⟨_, .bitCount hop hq hb⟩
  have hshaped : command.Shaped := ⟨hop, hq, hb⟩
  rcases unitsFit_or_firstOffender qubits command.qubits with hqubits | ⟨q, hfirst⟩
  swap
  · by_cases hdeclared : q ∈ qubits
    · exact .inr ⟨_, .repeatedQubit hshaped hfirst hdeclared⟩
    · exact .inr ⟨_, .missingQubit hshaped hfirst hdeclared⟩
  rcases unitsFit_or_firstOffender bits command.allBits with hbits | ⟨b, hfirst⟩
  · exact .inl ⟨hshaped, hqubits, hbits⟩
  · by_cases hdeclared : b ∈ bits
    · exact .inr ⟨_, .repeatedBit hshaped hqubits hfirst hdeclared⟩
    · exact .inr ⟨_, .missingBit hshaped hqubits hfirst hdeclared⟩

end Command

namespace Circuit

variable {c : Circuit} {command : Command}

/-- A command of the right shape is refused for its units only. -/
theorem check_of_shaped (h : command.Shaped) : c.check command =
    checkUnits c.qubitSet (.qubitNotFound · command.name) (.duplicateQubit · command.name) ∅
      command.qubits >>= fun _ =>
    checkUnits c.bitSet (.bitNotFound · command.name) (.duplicateBit · command.name) ∅
      command.allBits := by
  have hop := (Operation.check_eq_ok_iff _).2 h.admissible
  simp only [check, hop, h.qubit_count, h.bit_count, ne_eq, not_true_eq_false, if_false]
  rfl

theorem Indexed.check_eq_ok_iff_unitsFit (h : c.Indexed) (command : Command) :
    c.check command = .ok () ↔
      command.Shaped ∧ UnitsFit c.qubits command.qubits ∧ UnitsFit c.bits command.allBits := by
  rw [h.check_eq_ok_iff]
  constructor
  · intro hfits
    exact ⟨⟨hfits.admissible, hfits.qubit_count, hfits.bit_count⟩,
      ⟨hfits.qubits_declared, hfits.qubits_nodup⟩, hfits.bits_declared, hfits.bits_nodup⟩
  · rintro ⟨⟨hop, hq, hb⟩, ⟨hqd, hqn⟩, hbd, hbn⟩
    exact ⟨hop, hq, hb, hqd, hqn, hbd, hbn, fun condition _ => condition.bounds⟩

/-- The check gives the reason for the refusal. -/
theorem Indexed.check_of_refused (h : c.Indexed) {e : Error}
    (hrefused : command.Refused c.qubits c.bits e) : c.check command = .error e := by
  cases hrefused with
  | @notAGate type hop htype =>
    have hgate : type.isGate = false := by
      revert htype
      cases type <;> decide
    simp only [check, hop, Operation.check, hgate]
    rfl
  | qubitCount hop hq =>
    simp only [check, (Operation.check_eq_ok_iff _).2 hop, ne_eq, hq, not_false_eq_true, if_true]
    rfl
  | bitCount hop hq hb =>
    simp only [check, (Operation.check_eq_ok_iff _).2 hop, ne_eq, hq, hb, not_true_eq_false,
      not_false_eq_true, if_false, if_true]
    rfl
  | missingQubit hshaped hfirst hq =>
    rw [check_of_shaped hshaped, hfirst.checkUnits_missing _ _ h.mem_qubitSet hq]
    rfl
  | repeatedQubit hshaped hfirst hq =>
    rw [check_of_shaped hshaped, hfirst.checkUnits_repeated _ _ h.mem_qubitSet hq]
    rfl
  | missingBit hshaped hqubits hfirst hb =>
    rw [check_of_shaped hshaped, (checkUnits_eq_ok_iff_unitsFit _ _ h.mem_qubitSet _).2 hqubits]
    exact hfirst.checkUnits_missing _ _ h.mem_bitSet hb
  | repeatedBit hshaped hqubits hfirst hb =>
    rw [check_of_shaped hshaped, (checkUnits_eq_ok_iff_unitsFit _ _ h.mem_qubitSet _).2 hqubits]
    exact hfirst.checkUnits_repeated _ _ h.mem_bitSet hb

theorem Indexed.check_eq_error_iff (h : c.Indexed) {e : Error} :
    c.check command = .error e ↔ command.Refused c.qubits c.bits e := by
  constructor
  · intro hcheck
    rcases command.unitsFit_or_refused c.qubits c.bits with hfits | ⟨e', hrefused⟩
    · rw [(h.check_eq_ok_iff_unitsFit command).2 hfits] at hcheck
      cases hcheck
    · rw [h.check_of_refused hrefused] at hcheck
      cases hcheck
      exact hrefused
  · exact h.check_of_refused

end Circuit

/-- A command is added exactly when it is no gate of another kind, has as many qubits and bits as
its operation takes, and its qubits, and the bits of its condition together with those it writes,
are declared and distinct. It then comes last, and all else is as before. A command that is not
added is refused for the first of its faults, and the circuit is as before. -/
theorem Reachable.add_outcome {c : Circuit} (h : Reachable c) (command : Command) :
    ((∃ c', (Build.add command).run c = .ok () c') ↔
      (∀ type ∈ [OpType.measure, .reset, .circBox, .conditional], command.op ≠ .gate type) ∧
      (command.qubits.length = command.op.qubitCount ∧
        command.bits.length = command.op.bitCount) ∧
      ((∀ q ∈ command.qubits, q ∈ c.qubits) ∧ command.qubits.Nodup) ∧
      (∀ b ∈ command.conditionBits ++ command.bits, b ∈ c.bits) ∧
      (command.conditionBits ++ command.bits).Nodup) ∧
    (∀ c', (Build.add command).run c = .ok () c' →
      c' = { c with commands := c.commands ++ [command] }) ∧
    ∀ e c', (Build.add command).run c = .error e c' ↔
      command.Refused c.qubits c.bits e ∧ c' = c := by
  have hindexed := h.valid.indexed
  have hok := hindexed.check_eq_ok_iff_unitsFit command
  rw [Build.add_run]
  refine ⟨?_, ?_, fun e c' => ?_⟩
  · rw [← Operation.admissible_iff]
    cases hcheck : c.check command with
    | ok =>
      obtain ⟨⟨hop, hq, hb⟩, hqubits, hbits⟩ := hok.1 hcheck
      exact iff_of_true ⟨_, rfl⟩ ⟨hop, ⟨hq, hb⟩, hqubits, hbits⟩
    | error e =>
      refine iff_of_false (by simp) ?_
      rintro ⟨hop, ⟨hq, hb⟩, hqubits, hbits⟩
      rw [hok.2 ⟨⟨hop, hq, hb⟩, hqubits, hbits⟩] at hcheck
      cases hcheck
  · cases c.check command <;> simp [eq_comm]
  · rw [← hindexed.check_eq_error_iff]
    cases c.check command <;> simp [eq_comm]

/-- A measurement is added, and refused if its own bit guards it. Of a gate on one qubit twice,
guarded by a bit that is not declared, the qubit is named. -/
theorem Reachable.add_outcome_guardedFlip :
    (∃ c', (Build.add ⟨.measure, [.ofIndex 0], [.ofIndex 0], none, some "g"⟩).run .guardedFlip =
      .ok () c') ∧
    (Build.add ⟨.measure, [.ofIndex 0], [.ofIndex 0], some (.ifBit (.ofIndex 0)), none⟩).run
      .guardedFlip = .error (.duplicateBit (.ofIndex 0) "Measure") .guardedFlip ∧
    (Build.add ⟨.gate .cx, [.ofIndex 1, .ofIndex 1], [], some (.ifBit (.ofIndex 9)), none⟩).run
      .guardedFlip = .error (.duplicateQubit (.ofIndex 1) "CX") .guardedFlip := by
  have hqubits : Circuit.guardedFlip.qubits = [.ofIndex 0, .ofIndex 1] := rfl
  have hbits : Circuit.guardedFlip.bits = [.ofIndex 0] := rfl
  refine ⟨?_, ?_, ?_⟩
  · refine (Reachable.guardedFlip.add_outcome _).1.2 ?_
    rw [hqubits, hbits]
    exact ⟨by simp, ⟨rfl, rfl⟩, by decide, by decide, by decide⟩
  · refine ((Reachable.guardedFlip.add_outcome _).2.2 _ _).2 ⟨?_, rfl⟩
    rw [hqubits, hbits]
    refine .repeatedBit ⟨?_, rfl, rfl⟩ ⟨by decide, by decide⟩
      ⟨[.ofIndex 0], [], rfl, ⟨by decide, by decide⟩, by decide⟩ (by decide)
    trivial
  · refine ((Reachable.guardedFlip.add_outcome _).2.2 _ _).2 ⟨?_, rfl⟩
    rw [hqubits, hbits]
    refine .repeatedQubit ⟨?_, rfl, rfl⟩
      ⟨[.ofIndex 1], [], rfl, ⟨by decide, by decide⟩, by decide⟩ (by decide)
    rfl

end QuantumCircuit
