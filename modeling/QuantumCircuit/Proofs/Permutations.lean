import QuantumCircuit.Proofs.Canonical

/-! Permutations that a circuit accepts. Each pair is checked by itself, and in the end only that
no target is missing among the sources; since there are as many of both and none comes twice, no
source is missing among the targets either. Kept are only the pairs that move a qubit, so neither
the order of the pairs nor a pair that moves nothing leaves a trace, and nothing is left of what
was set before. Qubits that are declared later are not listed, and so stay where they are. -/

namespace QuantumCircuit

/-! ### Bijections -/

namespace Bijection

variable {α : Type} {units : List α} {pairs pairs' : List (α × α)}

/-- The order of the pairs does not matter. -/
theorem of_perm (h : Bijection units pairs) (hperm : pairs'.Perm pairs) :
    Bijection units pairs' where
  declared p hp := h.declared p (hperm.mem_iff.1 hp)
  sources_nodup := (hperm.map Prod.fst).nodup_iff.2 h.sources_nodup
  targets_nodup := (hperm.map Prod.snd).nodup_iff.2 h.targets_nodup
  same_members q := by
    rw [(hperm.map Prod.fst).mem_iff, (hperm.map Prod.snd).mem_iff]
    exact h.same_members q

/-- A pair that moves nothing can be listed for every declared unit that is not listed yet. -/
theorem cons_fixed_iff {q : α} : Bijection units ((q, q) :: pairs) ↔
    q ∈ units ∧ q ∉ pairs.map Prod.fst ∧ Bijection units pairs := by
  constructor
  · rintro ⟨hd, hs, ht, hsame⟩
    rw [List.forall_mem_cons] at hd
    rw [List.map_cons, List.nodup_cons] at hs ht
    refine ⟨hd.1.1, hs.1, hd.2, hs.2, ht.2, fun r => ?_⟩
    have hr := hsame r
    rw [List.map_cons, List.map_cons, List.mem_cons, List.mem_cons] at hr
    by_cases hrq : r = q
    · subst hrq
      exact iff_of_false hs.1 ht.1
    · simpa [hrq] using hr
  · rintro ⟨hq, hout, hd, hs, ht, hsame⟩
    refine ⟨List.forall_mem_cons.2 ⟨⟨hq, hq⟩, hd⟩, List.nodup_cons.2 ⟨hout, hs⟩,
      List.nodup_cons.2 ⟨fun hm => hout ((hsame q).2 hm), ht⟩, fun r => ?_⟩
    rw [List.map_cons, List.map_cons, List.mem_cons, List.mem_cons, hsame r]

end Bijection

/-! ### What is set -/

theorem getD_lookup_cons_fixed {pairs : List (Qubit × Qubit)} {q : Qubit}
    (h : q ∉ pairs.map Prod.fst) (r : Qubit) :
    (((q, q) :: pairs).lookup r).getD r = (pairs.lookup r).getD r := by
  by_cases hr : r = q
  · subst hr
    rw [List.lookup_cons_self, lookup_eq_none_of_notMem h]
    rfl
  · rw [List.lookup_cons, beq_false_of_ne hr]

namespace Circuit

variable {c c' : Circuit} {pairs pairs' : List (Qubit × Qubit)}

/-- A circuit sends its qubits to its qubits, each to another one. -/
theorem Valid.implicitPermutation_targets (h : c.Valid) :
    (c.implicitPermutation.map Prod.snd).Perm c.qubits := by
  have hperm := h.bijection_implicit.targets_perm
  rwa [c.implicitPermutation_sources] at hperm

theorem Valid.setPermutation_run_iff (h : c.Valid) :
    (Build.setPermutation pairs).run c = .ok () c' ↔
      Bijection c.qubits pairs ∧ c' = { c with permutation := movedPairs c.qubits pairs } := by
  rw [Build.setPermutation_run_eq_ok_iff, h.indexed.checkPermutation_eq_ok_iff]

/-- Two bijections that send each qubit to the same place leave the same circuit behind. -/
theorem Valid.setPermutation_run_congr (h : c.Valid)
    (hrun : (Build.setPermutation pairs).run c = .ok () c') (hpairs' : Bijection c.qubits pairs')
    (himages : ∀ q ∈ c.qubits, (pairs.lookup q).getD q = (pairs'.lookup q).getD q) :
    (Build.setPermutation pairs').run c = .ok () c' := by
  have hrun' := h.setPermutation_run_iff.2 ⟨hpairs', rfl⟩
  rw [hrun', (h.setPermutation_eq_iff hrun hrun').2 himages]

/-- The circuit `c'` is `c` with its qubits sent where the pairs say, and those that are not
listed left where they are. -/
structure Permuted (c : Circuit) (pairs : List (Qubit × Qubit)) (c' : Circuit) : Prop where
  sources : c'.implicitPermutation.map Prod.fst = c.qubits
  targets : (c'.implicitPermutation.map Prod.snd).Perm c.qubits
  listed : ∀ p ∈ pairs, p ∈ c'.implicitPermutation
  unlisted : ∀ q ∈ c.qubits, q ∉ pairs.map Prod.fst → (q, q) ∈ c'.implicitPermutation
  identity : c'.hasIdentityPermutation = true ↔ ∀ p ∈ pairs, p.1 = p.2
  all_else : c' = { c with permutation := c'.permutation }

theorem mem_implicitPermutation {q r : Qubit} :
    (q, r) ∈ c.implicitPermutation ↔ q ∈ c.qubits ∧ c.image q = r := by
  simp only [implicitPermutation, List.mem_map, Prod.mk.injEq]
  constructor
  · rintro ⟨q, hq, rfl, hr⟩
    exact ⟨hq, hr⟩
  · rintro ⟨hq, hr⟩
    exact ⟨q, hq, rfl, hr⟩

theorem Valid.permuted (h : c.Valid) (hrun : (Build.setPermutation pairs).run c = .ok () c') :
    c.Permuted pairs c' := by
  have hv' : c'.Valid := ((Build.setPermutation_makes pairs).of_ok hrun).valid h nofun
  have himage : ∀ q ∈ c.qubits, c'.image q = (pairs.lookup q).getD q :=
    fun q hq => h.image_of_setPermutation hrun hq
  obtain ⟨hpairs, hc'⟩ := h.setPermutation_run_iff.1 hrun
  have hqubits : c'.qubits = c.qubits := by rw [hc']
  constructor
  case sources => rw [implicitPermutation_sources, hqubits]
  case targets => exact hqubits ▸ hv'.implicitPermutation_targets
  case listed =>
    rintro ⟨q, r⟩ hp
    have hq := (hpairs.declared _ hp).1
    rw [mem_implicitPermutation, hqubits, himage q hq,
      (lookup_eq_some_iff_mem hpairs.sources_nodup q r).2 hp]
    exact ⟨hq, rfl⟩
  case unlisted =>
    intro q hq hout
    rw [mem_implicitPermutation, hqubits, himage q hq, lookup_eq_none_of_notMem hout]
    exact ⟨hq, rfl⟩
  case identity =>
    rw [hasIdentityPermutation, List.isEmpty_iff, hc', List.eq_nil_iff_forall_not_mem]
    simp only [mem_movedPairs hpairs.sources_nodup]
    constructor
    · intro hnone p hp
      by_contra hne
      exact hnone p ⟨(hpairs.declared p hp).1, hp, hne⟩
    · rintro hfixed p ⟨-, hp, hne⟩
      exact hne (hfixed p hp)
  case all_else => rw [hc']

end Circuit

/-! ### Qubits that are declared later -/

/-- A call other than one that sets the permutation. -/
def Call.KeepsPermutation (call : Call) : Prop := ∀ pairs, call ≠ .setPermutation pairs

/-- The first circuit has the permutation of the second, and perhaps more qubits behind. -/
def Circuit.Extends (d c : Circuit) : Prop :=
  d.permutation = c.permutation ∧ ∃ more, d.qubits = c.qubits ++ more

namespace Circuit.Extends

variable {c d e : Circuit}

theorem refl (c : Circuit) : c.Extends c := ⟨rfl, [], by simp⟩

theorem trans (hed : e.Extends d) (hdc : d.Extends c) : e.Extends c := by
  obtain ⟨hp, more, hq⟩ := hed
  obtain ⟨hp', more', hq'⟩ := hdc
  exact ⟨hp.trans hp', more' ++ more, by rw [hq, hq', List.append_assoc]⟩

end Circuit.Extends

theorem Edit.Made.extends {edit : Edit} {c c' : Circuit} (h : edit.Made c c')
    (hkeeps : ∀ pairs, edit ≠ .permutation pairs) : c'.Extends c := by
  cases edit with
  | qubits new =>
    obtain ⟨-, -, rfl⟩ := h
    exact ⟨rfl, new, rfl⟩
  | bits new =>
    obtain ⟨-, -, rfl⟩ := h
    exact .refl c
  | command added =>
    obtain ⟨-, rfl⟩ := h
    exact .refl c
  | permutation pairs => exact absurd rfl (hkeeps pairs)
  | inlining =>
    obtain ⟨flat, -, rfl⟩ := h
    exact .refl c
  | name text | phase text =>
    cases h
    exact .refl c

/-- One call. -/
theorem Call.leaves_extends {call : Call} (h : call.KeepsPermutation) (c : Circuit) :
    (call.leaves c).Extends c := by
  rcases call.leaves_cases c with hsame | hmade
  · exact hsame.symm ▸ .refl c
  · refine hmade.extends fun pairs hedit => ?_
    cases call with
    | setPermutation pairs' => exact h pairs' rfl
    | _ => cases hedit

/-- The circuit that calls leave behind, one after the other. -/
def Circuit.after (c : Circuit) (calls : List Call) : Circuit := calls.foldl Call.leaves c

theorem Circuit.after_extends {calls : List Call} (h : ∀ call ∈ calls, call.KeepsPermutation)
    (c : Circuit) : (c.after calls).Extends c := by
  induction calls generalizing c with
  | nil => exact .refl c
  | cons call calls ih =>
    rw [List.forall_mem_cons] at h
    exact (ih h.2 (call.leaves c)).trans (Call.leaves_extends h.1 c)

theorem Reachable.after {c : Circuit} (h : Reachable c) {calls : List Call}
    (hb : ∀ call ∈ calls, ∀ body ∈ call.body?, Reachable body) : Reachable (c.after calls) := by
  induction calls generalizing c with
  | nil => exact h
  | cons call calls ih =>
    rw [List.forall_mem_cons] at hb
    exact ih (.call call h hb.1) hb.2

/-- Qubits behind those of a permutation are not moved by it. -/
theorem Circuit.Extends.implicitPermutation_eq {c d : Circuit} (h : d.Extends c) (hc : c.Valid)
    (hd : d.Valid) : ∃ more, d.qubits = c.qubits ++ more ∧
      d.implicitPermutation = c.implicitPermutation ++ more.map fun q => (q, q) := by
  obtain ⟨hp, more, hq⟩ := h
  have himage : d.image = c.image := by
    funext q
    rw [image, image, hp]
  have hfixed : ∀ q ∈ more, c.image q = q := by
    intro q hm
    refine Valid.image_of_not_moved fun hmoved => ?_
    have hn := hd.indexed.qubits_nodup
    rw [hq] at hn
    exact (List.nodup_append.1 hn).2.2 q (hc.permutes.sources.subset hmoved) q hm rfl
  refine ⟨more, hq, ?_⟩
  rw [implicitPermutation, implicitPermutation, hq, List.map_append, himage]
  congr 1
  exact List.map_congr_left fun q hm => by rw [hfixed q hm]

/-- What is set is a bijection of declared qubits, and each such bijection can be set. Each qubit
is then sent where the pairs say, whatever was set before; the order of the pairs and the pairs
that move nothing make no difference; and whatever calls follow that do not set another one, the
qubits declared by them stay where they are, so that all qubits together are still permuted. -/
theorem Reachable.setPermutation_bijection {c : Circuit} (h : Reachable c)
    (pairs : List (Qubit × Qubit)) :
    ((∃ c', (Build.setPermutation pairs).run c = .ok () c') ↔ Bijection c.qubits pairs) ∧
    ∀ c', (Build.setPermutation pairs).run c = .ok () c' →
      c.Permuted pairs c' ∧
      (∀ before, (Build.setPermutation pairs).run { c with permutation := before } = .ok () c') ∧
      (∀ pairs', pairs'.Perm pairs → (Build.setPermutation pairs').run c = .ok () c') ∧
      (∀ q ∈ c.qubits, q ∉ pairs.map Prod.fst →
        (Build.setPermutation ((q, q) :: pairs)).run c = .ok () c') ∧
      (∀ q, (q, q) ∈ pairs → (Build.setPermutation (pairs.erase (q, q))).run c = .ok () c') ∧
      ∀ calls, (∀ call ∈ calls, call.KeepsPermutation) →
        (∀ call ∈ calls, ∀ body ∈ call.body?, Reachable body) →
        ∃ more, (c'.after calls).qubits = c.qubits ++ more ∧
          (c'.after calls).implicitPermutation =
            c'.implicitPermutation ++ more.map (fun q => (q, q)) ∧
          ((c'.after calls).implicitPermutation.map Prod.snd).Perm (c'.after calls).qubits := by
  have hv := h.valid
  refine ⟨⟨?_, fun hpairs => ⟨_, hv.setPermutation_run_iff.2 ⟨hpairs, rfl⟩⟩⟩, fun c' hrun => ?_⟩
  · rintro ⟨c', hrun⟩
    exact (hv.setPermutation_run_iff.1 hrun).1
  obtain ⟨hpairs, hc'⟩ := hv.setPermutation_run_iff.1 hrun
  have hreach : Reachable c' := by
    have hcall : (Call.setPermutation pairs).leaves c = c' := Build.leaves_of_run hrun
    exact hcall ▸ .call _ h fun body hb => by cases hb
  refine ⟨hv.permuted hrun, fun before => ?_, fun pairs' hperm => ?_, fun q hq hout => ?_,
    fun q hq => ?_, fun calls hkeeps hbodies => ?_⟩
  · obtain ⟨hcheck, -⟩ := Build.setPermutation_run_eq_ok_iff.1 hrun
    exact Build.setPermutation_run_eq_ok_iff.2 ⟨hcheck, hc'⟩
  · refine hv.setPermutation_run_congr hrun (hpairs.of_perm hperm) fun r _ => ?_
    rw [lookup_eq_of_perm hperm.symm hpairs.sources_nodup]
  · refine hv.setPermutation_run_congr hrun (Bijection.cons_fixed_iff.2 ⟨hq, hout, hpairs⟩)
      fun r _ => ?_
    rw [getD_lookup_cons_fixed hout]
  · have hperm := List.perm_cons_erase hq
    have hlisted := hpairs.of_perm hperm.symm
    obtain ⟨-, hout, hrest⟩ := Bijection.cons_fixed_iff.1 hlisted
    refine hv.setPermutation_run_congr hrun hrest fun r _ => ?_
    rw [lookup_eq_of_perm hperm hpairs.sources_nodup, getD_lookup_cons_fixed hout]
  · have hlater := (hreach.after hbodies).valid
    obtain ⟨more, hqubits, himplicit⟩ :=
      (c'.after_extends hkeeps).implicitPermutation_eq hreach.valid hlater
    have hsame : c'.qubits = c.qubits := by rw [hc']
    exact ⟨more, hsame ▸ hqubits, himplicit, hlater.implicitPermutation_targets⟩

/-- In place of an exchange of the first two qubits comes one of the first and the last, with the
one between them listed as well. Leaving it out makes no difference, and two qubits that are
declared later stay where they are; a single pair that moves a qubit is refused. -/
theorem Reachable.setPermutation_bijection_exchange :
    ¬ (∃ c', (Build.setPermutation [(.ofIndex 0, .ofIndex 1)]).run .exchange = .ok () c') ∧
      ∃ c', (Build.setPermutation [(.ofIndex 2, .ofIndex 0), (.ofIndex 1, .ofIndex 1),
          (.ofIndex 0, .ofIndex 2)]).run .exchange = .ok () c' ∧
        Circuit.Permuted .exchange [(.ofIndex 2, .ofIndex 0), (.ofIndex 1, .ofIndex 1),
          (.ofIndex 0, .ofIndex 2)] c' ∧
        (Build.setPermutation [(.ofIndex 2, .ofIndex 0), (.ofIndex 0, .ofIndex 2)]).run .exchange =
          .ok () c' ∧
        ((c'.after [.declareQubitRegister "r" 2]).implicitPermutation.map Prod.snd).Perm
          (c'.after [.declareQubitRegister "r" 2]).qubits := by
  constructor
  · rw [(Reachable.exchange.setPermutation_bijection _).1]
    intro hpairs
    have hsame := hpairs.same_members (.ofIndex 0)
    revert hsame
    decide
  · obtain ⟨-, hset⟩ := Reachable.exchange.setPermutation_bijection
      [(.ofIndex 2, .ofIndex 0), (.ofIndex 1, .ofIndex 1), (.ofIndex 0, .ofIndex 2)]
    obtain ⟨hpermuted, -, -, -, hleft, hlater⟩ := hset _ rfl
    obtain ⟨more, -, -, htargets⟩ := hlater [.declareQubitRegister "r" 2]
      (by simp [Call.KeepsPermutation]) (by simp [Call.body?])
    exact ⟨_, rfl, hpermuted, hleft (.ofIndex 1) (by decide), htargets⟩

end QuantumCircuit
