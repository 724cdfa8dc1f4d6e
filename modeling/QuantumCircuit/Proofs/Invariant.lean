import Mathlib.Data.Set.Function
import QuantumCircuit.Proofs.Reachable

/-! What holds of every circuit that can come about, and of every circuit inside one of
its boxes. -/

namespace QuantumCircuit

/-- The first circuit is the second, or stands inside a box of it, at some depth. -/
inductive Circuit.Within : Circuit → Circuit → Prop where
  | refl (c : Circuit) : Within c c
  | box {d body c : Circuit} {command : Command} {id : Uuid} (hc : command ∈ c.commands)
      (hop : command.op = .box id body) (h : Within d body) : Within d c

theorem Circuit.Within.valid {c d : Circuit} (h : d.Within c) (hc : c.Valid) : d.Valid := by
  induction h with
  | refl => exact hc
  | box hm hop _ ih => exact ih (hc.bodies _ hm _ _ hop)

/-- The qubits that a circuit moves. -/
def Circuit.moved (c : Circuit) : Set Qubit := {q | q ∈ c.permutation.map Prod.fst}

theorem Circuit.Valid.mem_permutation {c : Circuit} (h : c.Valid) {q : Qubit}
    (hq : q ∈ c.moved) : (q, c.image q) ∈ c.permutation := by
  have hn := h.indexed.qubits_nodup.sublist h.permutes.sources
  obtain ⟨⟨a, b⟩, hm, rfl⟩ := List.mem_map.1 hq
  rw [Circuit.image, (lookup_eq_some_iff_mem hn _ _).2 hm]
  exact hm

/-- Where the moved qubits go is a bijection among them. -/
theorem Circuit.Valid.image_bijOn {c : Circuit} (h : c.Valid) :
    Set.BijOn c.image c.moved c.moved := by
  have hs := h.indexed.qubits_nodup.sublist h.permutes.sources
  have ht := h.permutes.targets.nodup_iff.2 hs
  refine ⟨fun q hq => ?_, fun q hq r hr e => ?_, fun r hr => ?_⟩
  · exact h.permutes.targets.mem_iff.1 (List.mem_map_of_mem (h.mem_permutation hq))
  · have := List.inj_on_of_nodup_map ht (h.mem_permutation hq) (h.mem_permutation hr) e
    exact congrArg Prod.fst this
  · obtain ⟨⟨q, r'⟩, hm, rfl⟩ := List.mem_map.1 (h.permutes.targets.mem_iff.2 hr)
    refine ⟨q, List.mem_map.2 ⟨_, hm, rfl⟩, ?_⟩
    rw [Circuit.image, (lookup_eq_some_iff_mem hs _ _).2 hm]
    rfl

/-- Every circuit that can come about, and every circuit inside its boxes, has its units
once each and in its sets, commands that fit their operations and these units, and a
permutation that is a bijection of the declared qubits that it moves. -/
theorem Reachable.invariant {c d : Circuit} (h : Reachable c) (hd : d.Within c) :
    d.Indexed ∧ (∀ command ∈ d.commands, command.Fits d.qubits d.bits) ∧
      (∀ p ∈ d.permutation, p.1 ∈ d.qubits ∧ p.2 ∈ d.qubits ∧ p.1 ≠ p.2) ∧
      (d.permutation.map Prod.fst).Nodup ∧ Set.BijOn d.image d.moved d.moved := by
  have hv := hd.valid h.valid
  have hs := fun q (hq : q ∈ d.permutation.map Prod.fst) => hv.permutes.sources.subset hq
  refine ⟨hv.indexed, hv.fits, fun p hp => ⟨?_, ?_, hv.permutes.moved p hp⟩, ?_, hv.image_bijOn⟩
  · exact hs p.1 (List.mem_map_of_mem hp)
  · exact hs p.2 (hv.permutes.targets.mem_iff.1 (List.mem_map_of_mem hp))
  · exact hv.indexed.qubits_nodup.sublist hv.permutes.sources

/-- A circuit that flips its qubit. -/
def Circuit.flip : Circuit := (Call.gate .x [.ofIndex 0]).leaves (.withQubits 1)

/-- A circuit with a flip of its second qubit, in a box that runs if a bit is set, and
with its qubits exchanged at the end. -/
def Circuit.guardedFlip : Circuit :=
  (Call.setPermutation [(.ofIndex 0, .ofIndex 1), (.ofIndex 1, .ofIndex 0)]).leaves
    ((Call.box ⟨0⟩ flip [.ofIndex 1] (some (.ifBit (.ofIndex 0)))).leaves
      ((Call.declareBitRegister "c" 1).leaves (.withQubits 2)))

theorem Circuit.guardedFlip_commands : guardedFlip.commands =
    [⟨.box ⟨0⟩ flip, [.ofIndex 1], [], some (.ifBit (.ofIndex 0)), none⟩] := rfl

theorem Reachable.guardedFlip : Reachable .guardedFlip := by
  refine .call _ (.call _ (.call _ (.withQubits 2) ?_) ?_) ?_
  · intro body hb; cases hb
  · intro body hb
    cases hb
    exact .call _ (.withQubits 1) fun body hb => by cases hb
  · intro body hb; cases hb

theorem Reachable.invariant_flip_in_guardedFlip :
    (Circuit.flip.Indexed ∧
      (∀ command ∈ Circuit.flip.commands,
        command.Fits Circuit.flip.qubits Circuit.flip.bits) ∧
      (∀ p ∈ Circuit.flip.permutation,
        p.1 ∈ Circuit.flip.qubits ∧ p.2 ∈ Circuit.flip.qubits ∧ p.1 ≠ p.2) ∧
      (Circuit.flip.permutation.map Prod.fst).Nodup ∧
      Set.BijOn Circuit.flip.image Circuit.flip.moved Circuit.flip.moved) ∧
    Set.BijOn Circuit.guardedFlip.image Circuit.guardedFlip.moved Circuit.guardedFlip.moved := by
  have hin : Circuit.flip.Within .guardedFlip :=
    .box (by rw [Circuit.guardedFlip_commands]; exact List.mem_cons_self) rfl (.refl _)
  exact ⟨Reachable.guardedFlip.invariant hin,
    (Reachable.guardedFlip.invariant (.refl _)).2.2.2.2⟩

end QuantumCircuit
