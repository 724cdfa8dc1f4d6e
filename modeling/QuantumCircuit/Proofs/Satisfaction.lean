import Mathlib.Data.Set.Function
import QuantumCircuit.Proofs.Acceptance
import QuantumCircuit.Proofs.Guards

/-! Which conditions can be met. Digits of a fixed width spell every number below the power of two,
and each of them in one way; so a value is refused where no values of the bits could spell it, and
where it is accepted it says what each bit has to be. With a bit that is read twice neither would
be true. Whether a value fits can also be seen by shifting it, except at the full width of a
value, where nothing would be left to shift by. -/

namespace QuantumCircuit

/-! ### Numbers and their digits -/

theorem littleEndian_lt (ds : List Bool) : littleEndian ds < 2 ^ ds.length := by
  induction ds with
  | nil => simp [littleEndian]
  | cons d ds ih =>
    have hd := d.toNat_le
    rw [littleEndian, List.length_cons, pow_succ]
    omega

/-- Digits of the same width that spell the same number are the same. -/
theorem littleEndian_inj {as bs : List Bool} (hlength : as.length = bs.length)
    (h : littleEndian as = littleEndian bs) : as = bs := by
  induction as generalizing bs with
  | nil => exact (List.length_eq_zero_iff.1 hlength.symm).symm
  | cons a as ih =>
    obtain _ | ⟨b, bs⟩ := bs
    · cases hlength
    have ha := a.toNat_le
    have hb := b.toNat_le
    rw [littleEndian, littleEndian] at h
    have hdigit : a = b := by
      cases a <;> cases b <;>
        simp only [Bool.toNat_false, Bool.toNat_true, reduceCtorEq] at h ⊢ <;> omega
    rw [hdigit, ih (Nat.succ.inj hlength) (by omega)]

/-- The lowest digits of a number, if there are enough of them, spell it. -/
theorem littleEndian_testBit {v n : ℕ} (h : v < 2 ^ n) :
    littleEndian ((List.range n).map v.testBit) = v := by
  induction n generalizing v with
  | zero => exact (Nat.lt_one_iff.1 h).symm
  | succ n ih =>
    have hhalf : v / 2 < 2 ^ n := by
      rw [pow_succ] at h
      omega
    have hlow : (v.testBit 0).toNat = v % 2 := by
      rw [Nat.testBit_zero]
      rcases Nat.mod_two_eq_zero_or_one v with h | h <;> simp [h]
    have hhigh : (v.testBit ∘ Nat.succ) = (v / 2).testBit := by
      funext i
      exact Nat.testBit_succ v i
    rw [List.range_succ_eq_map, List.map_cons, List.map_map, hhigh, littleEndian, ih hhalf, hlow]
    exact Nat.mod_add_div v 2

/-! ### Values of bits -/

section Spelling

variable {bits : List Bit}

/-- The values that different bits have when they spell `v`. -/
def spelling (bits : List Bit) (v : ℕ) (b : Bit) : Bool := v.testBit (bits.idxOf b)

theorem littleEndian_spelling (hn : bits.Nodup) {v : ℕ} (h : v < 2 ^ bits.length) :
    littleEndian (bits.map (spelling bits v)) = v := by
  have hdigits : bits.map (spelling bits v) = (List.range bits.length).map v.testBit := by
    apply List.ext_getElem
    · simp
    · intro i h₁ h₂
      simp [spelling, hn.idxOf_getElem]
  rw [hdigits, littleEndian_testBit h]

theorem exists_littleEndian_iff (hn : bits.Nodup) {v : ℕ} :
    (∃ values : Bit → Bool, littleEndian (bits.map values) = v) ↔ v < 2 ^ bits.length := by
  constructor
  · rintro ⟨values, rfl⟩
    simpa using littleEndian_lt (bits.map values)
  · intro h
    exact ⟨_, littleEndian_spelling hn h⟩

/-- What bits spell says what each of them is. -/
theorem littleEndian_map_inj {values values' : Bit → Bool} :
    littleEndian (bits.map values) = littleEndian (bits.map values') ↔
      ∀ b ∈ bits, values b = values' b := by
  rw [← List.map_eq_map_iff]
  constructor
  · exact littleEndian_inj (by simp)
  · intro h
    rw [h]

end Spelling

/-! ### Conditions -/

namespace Condition

variable {bits : List Bit} {value : UInt64} {c : Condition}

/-- There are values of the bits that satisfy the condition, and what they say about the bits that
it reads is the only way to satisfy it. -/
def SatisfiedOnce (c : Condition) : Prop :=
  ∃ values : Bit → Bool, ∀ values' : Bit → Bool,
    c.holds values' ↔ ∀ b ∈ c.bits, values' b = values b

theorem satisfiedOnce (hn : c.bits.Nodup) : c.SatisfiedOnce := by
  refine ⟨spelling c.bits c.value.toNat, fun values' => ?_⟩
  rw [← littleEndian_map_inj, littleEndian_spelling hn c.bounds.2.2, holds, beq_iff_eq]

theorem exists_make_iff :
    (∃ c, make bits value = .ok c) ↔
      1 ≤ bits.length ∧ bits.length ≤ 64 ∧ value.toNat < 2 ^ bits.length := by
  simp only [make_eq_ok_iff, exists_iff]

theorem make_eq_error (h : bits.length = 0 ∨ 64 < bits.length) :
    ∃ e, make bits value = .error e := by
  cases hmake : make bits value with
  | error e => exact ⟨e, rfl⟩
  | ok c =>
    obtain ⟨hpos, hle, -⟩ := exists_make_iff.1 ⟨c, hmake⟩
    omega

theorem exists_make_iff_spelled (hn : bits.Nodup) (hpos : 1 ≤ bits.length)
    (hle : bits.length ≤ 64) : (∃ c, make bits value = .ok c) ↔
      ∃ values : Bit → Bool, littleEndian (bits.map values) = value.toNat := by
  rw [exists_make_iff, exists_littleEndian_iff hn]
  exact ⟨fun h => h.2.2, fun h => ⟨hpos, hle, h⟩⟩

/-- A value fits if shifting it by the width leaves nothing, or if the width is the full one. -/
theorem exists_make_iff_shifted (hpos : 1 ≤ bits.length) (hle : bits.length ≤ 64) :
    (∃ c, make bits value = .ok c) ↔
      (bits.length < 64 → value >>> UInt64.ofNat bits.length = 0) := by
  have hlt := value.toNat_lt
  rw [exists_make_iff]
  rcases hle.lt_or_eq with hnarrow | hfull
  · have hshift : (UInt64.ofNat bits.length).toNat % 64 = bits.length := by
      rw [UInt64.toNat_ofNat_of_lt' (by rw [UInt64.size]; omega), Nat.mod_eq_of_lt hnarrow]
    rw [← UInt64.toNat_inj, UInt64.toNat_shiftRight, hshift, Nat.shiftRight_eq_div_pow,
      UInt64.toNat_zero, Nat.div_eq_zero_iff_lt (Nat.two_pow_pos _)]
    exact ⟨fun h _ => h.2.2, fun h => ⟨hpos, hle, h hnarrow⟩⟩
  · rw [hfull]
    exact ⟨fun _ h => absurd h (Nat.lt_irrefl 64), fun _ => ⟨by omega, le_rfl, hlt⟩⟩

theorem satisfiedOnce_of_make (hn : bits.Nodup) (hc : make bits value = .ok c) :
    c.bits = bits ∧ c.value = value ∧ c.SatisfiedOnce := by
  obtain ⟨rfl, rfl⟩ := make_eq_ok_iff.1 hc
  exact ⟨rfl, rfl, satisfiedOnce hn⟩

/-! ### Renaming -/

section Renaming

variable {f : Bit → Bit}

theorem mapBits_eq {ε : Type} {rename : Bit → Except ε Bit}
    (h : ∀ b ∈ c.bits, rename b = .ok (f b)) : c.mapBits rename = .ok (c.renamed f) := by
  rw [mapBits, renameAll_eq_ok_map h]
  rfl

theorem holds_renamed (values : Bit → Bool) :
    (c.renamed f).holds values = c.holds (values ∘ f) := by
  rw [holds, holds, renamed_bits, List.map_map, renamed_value]

theorem SatisfiedOnce.renamed (h : c.SatisfiedOnce) (hf : Set.InjOn f {b | b ∈ c.bits}) :
    (c.renamed f).SatisfiedOnce := by
  obtain ⟨values, hvalues⟩ := h
  -- a new name tells which bit it was given to
  let origin := Function.invFunOn f {b | b ∈ c.bits}
  have horigin : ∀ b ∈ c.bits, origin (f b) = b := fun b hb => hf.leftInvOn_invFunOn hb
  refine ⟨values ∘ origin, fun values' => ?_⟩
  rw [holds_renamed, hvalues, renamed_bits, List.forall_mem_map]
  refine forall₂_congr fun b hb => ?_
  rw [Function.comp, Function.comp, horigin b hb]

end Renaming

/-- A condition on different bits is made exactly if some values of the bits spell its value, and
then one way only to set these bits satisfies it; without bits or with more than 64 none is made.
The same holds for the bits of a register in index order. Renaming the bits, as long as different
ones get different names, goes through and changes neither width nor value nor whether the
condition is satisfied once. -/
theorem make_satisfiable :
    (∀ (bits : List Bit) (value : UInt64), bits.Nodup → 1 ≤ bits.length → bits.length ≤ 64 →
      ((∃ c, make bits value = .ok c) ↔
        ∃ values : Bit → Bool, littleEndian (bits.map values) = value.toNat) ∧
      ((∃ c, make bits value = .ok c) ↔
        (bits.length < 64 → value >>> UInt64.ofNat bits.length = 0)) ∧
      ∀ c, make bits value = .ok c → c.bits = bits ∧ c.value = value ∧ c.SatisfiedOnce) ∧
    (∀ (bits : List Bit) (value : UInt64), bits.length = 0 ∨ 64 < bits.length →
      ∃ e, make bits value = .error e) ∧
    (∀ (r : Register) (value : UInt64),
      (1 ≤ r.size → r.size ≤ 64 →
        ((∃ c, ofRegister r value = .ok c) ↔
          ∃ values : Bit → Bool, r.reading values = value.toNat) ∧
        ∀ c, ofRegister r value = .ok c →
          c.bits = (List.range r.size.toNat).map (fun i => r.bit (UInt32.ofNat i)) ∧
            c.value = value ∧ c.SatisfiedOnce) ∧
      (r.size = 0 ∨ 64 < r.size → ∃ e, ofRegister r value = .error e)) ∧
    ∀ (ε : Type) (c : Condition) (rename : Bit → Except ε Bit) (f : Bit → Bit),
      (∀ b ∈ c.bits, rename b = .ok (f b)) → Set.InjOn f {b | b ∈ c.bits} →
        ∃ c', c.mapBits rename = .ok c' ∧ c'.bits = c.bits.map f ∧ c'.width = c.width ∧
          c'.value = c.value ∧ (∀ values, c'.holds values = c.holds (values ∘ f)) ∧
          (c.SatisfiedOnce → c'.SatisfiedOnce) := by
  refine ⟨?_, fun bits value h => make_eq_error h, fun r value => ⟨fun hpos hle => ?_, fun h => ?_⟩,
    fun ε c rename f hrename hf => ?_⟩
  · intro bits value hn hpos hle
    exact ⟨exists_make_iff_spelled hn hpos hle, exists_make_iff_shifted hpos hle,
      fun c hc => satisfiedOnce_of_make hn hc⟩
  · rw [UInt32.le_iff_toNat_le, ← r.length_bits] at hle
    rw [UInt32.le_iff_toNat_le, ← r.length_bits] at hpos
    rw [← r.bits_eq]
    simp only [← r.littleEndian_bits]
    exact ⟨exists_make_iff_spelled r.bits_nodup hpos hle,
      fun c hc => satisfiedOnce_of_make r.bits_nodup hc⟩
  · refine make_eq_error ?_
    rw [r.length_bits]
    exact h.imp (fun h => by rw [h]; rfl) UInt32.lt_iff_toNat_lt.1
  · exact ⟨c.renamed f, mapBits_eq hrename, rfl, List.length_map f, rfl, holds_renamed,
      fun h => h.renamed hf⟩

/-- The largest value is accepted on 64 bits and refused on 63, where the last bit would be lost.
The second bit of a register of two can be asked for, also under another name. -/
theorem make_satisfiable_fullWidth :
    (∃ c, make (Register.mk "c" 64).bits 18446744073709551615 = .ok c ∧ c.SatisfiedOnce) ∧
      (¬ ∃ c, make (Register.mk "c" 63).bits 18446744073709551615 = .ok c) ∧
      (∃ e, make [] 0 = .error e) ∧
      ∃ c c', ofRegister ⟨"m", 2⟩ 2 = .ok c ∧
        c.mapBits (fun b => Except.ok (ε := Error) ⟨⟨"n", b.id.index⟩⟩) = .ok c' ∧
        c'.bits = [.inRegister "n" 0, .inRegister "n" 1] ∧ c'.SatisfiedOnce := by
  obtain ⟨hmake, hnone, hregister, hrename⟩ := make_satisfiable
  have hlength : ∀ n : UInt32, (Register.mk "c" n).bits.length = n.toNat :=
    fun n => (Register.mk "c" n).length_bits
  refine ⟨?_, ?_, hnone [] 0 (.inl rfl), ?_⟩
  · obtain ⟨-, hshift, hmade⟩ := hmake (Register.mk "c" 64).bits 18446744073709551615
      (Register.bits_nodup _) (by rw [hlength]; decide) (by rw [hlength]; decide)
    obtain ⟨c, hc⟩ := hshift.2 fun h => absurd h (by rw [hlength]; decide)
    exact ⟨c, hc, (hmade c hc).2.2⟩
  · obtain ⟨-, hshift, -⟩ := hmake (Register.mk "c" 63).bits 18446744073709551615
      (Register.bits_nodup _) (by rw [hlength]; decide) (by rw [hlength]; decide)
    rw [hshift, hlength]
    decide
  · obtain ⟨-, hmade⟩ := (hregister ⟨"m", 2⟩ 2).1 (by decide) (by decide)
    have hc : ofRegister ⟨"m", 2⟩ 2 = .ok .secondOnly := rfl
    obtain ⟨c', hc', hbits, -, -, -, honce⟩ := hrename Error .secondOnly
      (fun b => .ok ⟨⟨"n", b.id.index⟩⟩) (fun b => ⟨⟨"n", b.id.index⟩⟩) (fun b _ => rfl) (by
        simp [Set.InjOn, secondOnly, Bit.inRegister])
    exact ⟨.secondOnly, c', hc, hc', hbits, honce (hmade _ hc).2.2⟩

end Condition

end QuantumCircuit
