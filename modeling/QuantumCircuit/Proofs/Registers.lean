import Mathlib.Data.List.Nodup
import Mathlib.Order.Lattice
import QuantumCircuit.Qasm.Emission

/-! The registers of a list of units, which one pass over the units finds. Whatever the order of the
units, and with or without gaps, no two registers get the same name, every unit lies in the
register of its name, and a register is no larger than its last unit asks for. The pass stops at
the first unit that has several indices or none, or the last index there is, past which no
register can reach. -/

namespace QuantumCircuit

/-! ### Units -/

/-- All units of a circuit, the qubits first. -/
def Circuit.units (c : Circuit) : List UnitId := c.qubits.map Qubit.id ++ c.bits.map Bit.id

/-- The unit has exactly one index, and a register can reach past it. -/
def UnitId.Addressable (u : UnitId) : Prop := ∃ i, u.index = [i] ∧ i ≠ 4294967295

/-- The unit has the name of the register and an index below its size. -/
def UnitId.LiesIn (u : UnitId) (r : Register) : Prop := ∃ i, u = ⟨r.name, [i]⟩ ∧ i < r.size

/-- The register reaches one past the largest index among the units of its name. -/
def Register.Spans (r : Register) (units : List UnitId) : Prop :=
  (∃ i, ⟨r.name, [i]⟩ ∈ units ∧ r.size.toNat = i.toNat + 1) ∧
    ∀ i, ⟨r.name, [i]⟩ ∈ units → i < r.size

theorem eq_last_iff {i : UInt32} : i = 4294967295 ↔ i.toNat = 4294967295 :=
  UInt32.toNat_inj.symm

theorem toNat_succ {i : UInt32} (h : i ≠ 4294967295) : (i + 1).toNat = i.toNat + 1 := by
  have hlt := i.toNat_lt
  rw [Ne, eq_last_iff] at h
  rw [UInt32.toNat_add, UInt32.toNat_one]
  exact Nat.mod_eq_of_lt (by omega)

theorem pastIndex_eq (i : UInt32) :
    pastIndex i = if i = 4294967295 then .error .pastLastIndex else .ok (i + 1) := by
  have hlt := i.toNat_lt
  have hroom : i.toNat + 1 < UInt32.size ↔ ¬ i = 4294967295 := by
    rw [eq_last_iff, UInt32.size]
    omega
  simp only [pastIndex, hroom, ite_not]

namespace Qasm

/-! ### One unit -/

/-- Why a unit has no place in a register. -/
inductive Misplaced : UnitId → Refusal → Prop where
  | notSingle {u : UnitId} (h : ∀ i, u.index ≠ [i]) :
      Misplaced u (.unsupported (.notSingleIndex u))
  | last {u : UnitId} (h : u.index = [4294967295]) : Misplaced u (.overflow .pastLastIndex)

theorem addressable_or_misplaced (u : UnitId) : u.Addressable ∨ ∃ e, Misplaced u e := by
  by_cases h : ∃ i, u.index = [i]
  · obtain ⟨i, hi⟩ := h
    by_cases hlast : i = 4294967295
    · exact .inr ⟨_, .last (hlast ▸ hi)⟩
    · exact .inl ⟨i, hi, hlast⟩
  · exact .inr ⟨_, .notSingle fun i hi => h ⟨i, hi⟩⟩

theorem registersFrom_cons {u : UnitId} {i : UInt32} (hi : u.index = [i]) (h : i ≠ 4294967295)
    (found : List Register) (us : List UnitId) :
    registersFrom found (u :: us) = registersFrom (extend u.register (i + 1) found) us := by
  have hsingle : u.single? = some i := by simp [UnitId.single?, hi]
  simp only [registersFrom, hsingle, pastIndex_eq, if_neg h]

theorem registersFrom_misplaced {u : UnitId} {e : Refusal} (h : Misplaced u e)
    (found : List Register) (us : List UnitId) : registersFrom found (u :: us) = .error e := by
  cases h with
  | notSingle h =>
    have hsingle : u.single? = none := by
      rw [UnitId.single?]
      split
      next i hi => exact absurd hi (h i)
      next => rfl
    simp only [registersFrom, hsingle]
  | last h =>
    have hsingle : u.single? = some 4294967295 := by simp [UnitId.single?, h]
    simp only [registersFrom, hsingle, pastIndex_eq, if_true]

/-- Extending keeps the other registers, and the one of that name if it reaches far enough. -/
theorem mem_of_mem_extend {name : String} {size : UInt32} {r : Register} {rs : List Register}
    (h : r ∈ extend name size rs) : r = ⟨name, size⟩ ∨ r ∈ rs := by
  induction rs with
  | nil => exact .inl (List.mem_singleton.1 h)
  | cons s rs ih =>
    rw [extend] at h
    split at h
    next hname =>
      rcases List.mem_cons.1 h with rfl | h
      · subst hname
        by_cases hle : s.size ≤ size
        · exact .inl (by rw [show max s.size size = size from if_pos hle])
        · rw [show max s.size size = s.size from if_neg hle]
          exact .inr List.mem_cons_self
      · exact .inr (List.mem_cons_of_mem s h)
    next =>
      rcases List.mem_cons.1 h with rfl | h
      · exact .inr List.mem_cons_self
      · exact (ih h).imp_right (List.mem_cons_of_mem s)

theorem map_name_extend (name : String) (size : UInt32) (rs : List Register) :
    (extend name size rs).map Register.name =
      if name ∈ rs.map Register.name then rs.map Register.name
      else rs.map Register.name ++ [name] := by
  induction rs with
  | nil => simp [extend]
  | cons r rs ih =>
    by_cases hname : r.name = name
    · simp [extend, hname]
    · have hname' : name ≠ r.name := Ne.symm hname
      simp only [extend, hname, if_false, List.map_cons, ih, List.mem_cons, hname', false_or]
      split_ifs <;> rfl

theorem toNat_max (a b : UInt32) : (max a b).toNat = max a.toNat b.toNat := by
  by_cases h : a ≤ b
  · rw [show max a b = b from if_pos h, max_eq_right (UInt32.le_iff_toNat_le.1 h)]
  · have hle := UInt32.le_iff_toNat_le.1 (UInt32.le_of_lt (UInt32.not_le.1 h))
    rw [show max a b = a from if_neg h, max_eq_left hle]

/-- After extending, the register of that name reaches far enough. -/
theorem exists_mem_extend (name : String) (size : UInt32) (rs : List Register) :
    ∃ r ∈ extend name size rs, r.name = name ∧ size ≤ r.size := by
  induction rs with
  | nil => exact ⟨_, List.mem_cons_self, rfl, UInt32.le_refl size⟩
  | cons r rs ih =>
    rw [extend]
    split_ifs with hname
    · refine ⟨_, List.mem_cons_self, rfl, UInt32.le_iff_toNat_le.2 ?_⟩
      rw [toNat_max]
      exact le_max_right r.size.toNat size.toNat
    · obtain ⟨s, hs, h⟩ := ih
      exact ⟨s, List.mem_cons_of_mem r hs, h⟩

/-- Extending makes no register smaller. -/
theorem extend_grows {name : String} {size : UInt32} {rs : List Register} {r : Register}
    (h : r ∈ rs) : ∃ s ∈ extend name size rs, s.name = r.name ∧ r.size ≤ s.size := by
  induction rs with
  | nil => cases h
  | cons s rs ih =>
    rw [extend]
    split_ifs with hname
    · rcases List.mem_cons.1 h with rfl | h
      · refine ⟨_, List.mem_cons_self, hname.symm, UInt32.le_iff_toNat_le.2 ?_⟩
        rw [toNat_max]
        exact le_max_left r.size.toNat size.toNat
      · exact ⟨r, List.mem_cons_of_mem _ h, rfl, UInt32.le_refl _⟩
    · rcases List.mem_cons.1 h with rfl | h
      · exact ⟨r, List.mem_cons_self, rfl, UInt32.le_refl _⟩
      · obtain ⟨t, ht, hgrows⟩ := ih h
        exact ⟨t, List.mem_cons_of_mem s ht, hgrows⟩

/-! ### All units -/

/-- What registers have to do with the units that they were found for. -/
structure Declares (units : List UnitId) (rs : List Register) : Prop where
  names_nodup : (rs.map Register.name).Nodup
  lies_in : ∀ u ∈ units, ∃ r ∈ rs, u.LiesIn r
  reached : ∀ r ∈ rs, ∃ i, ⟨r.name, [i]⟩ ∈ units ∧ r.size.toNat = i.toNat + 1

namespace Declares

variable {units us : List UnitId} {u : UnitId} {rs found : List Register} {r s : Register}

/-- One more unit. -/
theorem step (h : Declares units rs) {i size : UInt32} (hi : u.index = [i])
    (hsize : size.toNat = i.toNat + 1) : Declares (units ++ [u]) (extend u.register size rs) where
  names_nodup := by
    rw [map_name_extend]
    split_ifs with hname
    · exact h.names_nodup
    · exact h.names_nodup.append (List.nodup_singleton _) (by simpa using hname)
  lies_in v hv := by
    rcases List.mem_append.1 hv with hv | hv
    · obtain ⟨r, hr, j, rfl, hj⟩ := h.lies_in v hv
      obtain ⟨s, hs, hname, hgrows⟩ := extend_grows hr
      exact ⟨s, hs, j, by rw [hname], UInt32.lt_of_lt_of_le hj hgrows⟩
    · obtain rfl := List.mem_singleton.1 hv
      obtain ⟨s, hs, hname, hreaches⟩ := exists_mem_extend v.register size rs
      have hlt : i < size := UInt32.lt_iff_toNat_lt.2 (by omega)
      exact ⟨s, hs, i, by rw [hname, ← hi], UInt32.lt_of_lt_of_le hlt hreaches⟩
  reached r hr := by
    rcases mem_of_mem_extend hr with rfl | hr
    · refine ⟨i, List.mem_append_right _ (List.mem_singleton.2 ?_), hsize⟩
      rw [← hi]
    · obtain ⟨j, hj, hreached⟩ := h.reached r hr
      exact ⟨j, List.mem_append_left _ hj, hreached⟩

/-- The whole pass. -/
theorem run (h : Declares units found) (hrun : registersFrom found us = .ok rs) :
    Declares (units ++ us) rs := by
  induction us generalizing units found with
  | nil =>
    cases hrun
    rwa [List.append_nil]
  | cons u us ih =>
    rcases addressable_or_misplaced u with ⟨i, hi, hlast⟩ | ⟨e, he⟩
    · rw [registersFrom_cons hi hlast] at hrun
      rw [List.append_cons]
      exact ih (h.step hi (toNat_succ hlast)) hrun
    · rw [registersFrom_misplaced he] at hrun
      cases hrun

theorem of_registersOf (h : registersOf units = .ok rs) : Declares units rs := by
  have hnone : Declares [] [] := ⟨.nil, by simp, by simp⟩
  exact hnone.run h

/-- A name stands for one register. -/
theorem eq_of_name (h : Declares units rs) (hr : r ∈ rs) (hs : s ∈ rs) (hname : r.name = s.name) :
    r = s :=
  List.inj_on_of_nodup_map h.names_nodup hr hs hname

theorem mem_iff_spans (h : Declares units rs) : r ∈ rs ↔ r.Spans units := by
  have hspans : ∀ s ∈ rs, s.Spans units := by
    intro s hs
    refine ⟨h.reached s hs, fun i hi => ?_⟩
    obtain ⟨t, ht, j, hij, hj⟩ := h.lies_in _ hi
    obtain ⟨hname, hindex⟩ := UnitId.mk.inj hij
    obtain rfl := h.eq_of_name hs ht hname
    cases hindex
    exact hj
  refine ⟨hspans r, fun hr => ?_⟩
  obtain ⟨⟨i, hi, hsize⟩, hbelow⟩ := hr
  obtain ⟨s, hs, j, hij, -⟩ := h.lies_in _ hi
  obtain ⟨hname, -⟩ := UnitId.mk.inj hij
  obtain ⟨⟨k, hk, hsize'⟩, hbelow'⟩ := hspans s hs
  -- both reach one past the largest index
  have hik := UInt32.lt_iff_toNat_lt.1 (hbelow' i (hname ▸ hi))
  have hki := UInt32.lt_iff_toNat_lt.1 (hbelow k (hname ▸ hk))
  obtain ⟨name, size⟩ := r
  obtain ⟨name', size'⟩ := s
  dsimp only at hname hsize hsize' hik hki
  obtain rfl := hname
  rwa [show size = size' from UInt32.toNat_inj.1 (by omega)]

theorem size_pos (h : Declares units rs) (hr : r ∈ rs) : 1 ≤ r.size := by
  obtain ⟨i, -, hsize⟩ := h.reached r hr
  exact UInt32.le_iff_toNat_le.2 (by simp [hsize])

/-- The registers have the names of the units. -/
theorem mem_names_iff (h : Declares units rs) {name : String} :
    name ∈ rs.map Register.name ↔ ∃ u ∈ units, u.register = name := by
  constructor
  · intro hname
    obtain ⟨r, hr, rfl⟩ := List.mem_map.1 hname
    obtain ⟨i, hi, -⟩ := h.reached r hr
    exact ⟨_, hi, rfl⟩
  · rintro ⟨u, hu, rfl⟩
    obtain ⟨r, hr, i, rfl, -⟩ := h.lies_in u hu
    exact List.mem_map_of_mem hr

end Declares

/-! ### The first unit without a place -/

/-- The first unit without a place in a register, with the reason. -/
def FirstMisplaced (units : List UnitId) (u : UnitId) (e : Refusal) : Prop :=
  ∃ before after, units = before ++ u :: after ∧ (∀ v ∈ before, v.Addressable) ∧ Misplaced u e

theorem all_addressable_or_first (units : List UnitId) :
    (∀ u ∈ units, u.Addressable) ∨ ∃ u e, FirstMisplaced units u e := by
  induction units with
  | nil => exact .inl (by simp)
  | cons v units ih =>
    rcases addressable_or_misplaced v with hv | ⟨e, he⟩
    · rcases ih with hall | ⟨u, e, before, after, rfl, hbefore, he⟩
      · exact .inl (List.forall_mem_cons.2 ⟨hv, hall⟩)
      · exact .inr ⟨u, e, v :: before, after, rfl, List.forall_mem_cons.2 ⟨hv, hbefore⟩, he⟩
    · exact .inr ⟨v, e, [], units, rfl, by simp, he⟩

theorem exists_registersFrom {us : List UnitId} (h : ∀ u ∈ us, u.Addressable)
    (found : List Register) : ∃ rs, registersFrom found us = .ok rs := by
  induction us generalizing found with
  | nil => exact ⟨found, rfl⟩
  | cons u us ih =>
    rw [List.forall_mem_cons] at h
    obtain ⟨⟨i, hi, hlast⟩, h⟩ := h
    rw [registersFrom_cons hi hlast]
    exact ih h _

theorem FirstMisplaced.registersFrom {us : List UnitId} {u : UnitId} {e : Refusal}
    (h : FirstMisplaced us u e) (found : List Register) :
    Qasm.registersFrom found us = .error e := by
  obtain ⟨before, after, rfl, hbefore, he⟩ := h
  induction before generalizing found with
  | nil => exact registersFrom_misplaced he found after
  | cons v before ih =>
    rw [List.forall_mem_cons] at hbefore
    obtain ⟨⟨i, hi, hlast⟩, hbefore⟩ := hbefore
    rw [List.cons_append, registersFrom_cons hi hlast]
    exact ih _ hbefore

end Qasm

end QuantumCircuit
