import Mathlib.Data.List.Basic
import Mathlib.Tactic.NormNum
import QuantumCircuit.Json.Layout

/-! Literals and numerals that are written can be read back: reading takes exactly what
was written and stops there. A numeral stops only where no digit, point or exponent
follows it. Numerals of natural numbers below `2 ^ 64` are in range. -/

namespace QuantumCircuit.Json

/-! ### Literals -/

namespace Literal

theorem hexNumber?_control {n : Nat} (h : n < 0x20) :
    hexNumber? ['0', '0', hexDigit (n / 16), hexDigit (n % 16)] = some n := by
  have h₀ : hexValue? '0' = some 0 := by decide
  simp only [hexNumber?, List.foldlM_cons, List.foldlM_nil, h₀,
    hexValue?_hexDigit (show n / 16 < 16 by omega), hexValue?_hexDigit (show n % 16 < 16 by omega)]
  simp
  omega

/-- The fragment that spells a character: a UTF-16 unit for those control characters that
have no shorter escape. -/
def fragmentOf (c : Char) : Fragment :=
  if c.toNat < 0x20 ∧ c ∉ ['\x08', '\x0c', '\n', '\r', '\t'] then .unit c.toNat else .char c

theorem fragments_escape (c : Char) (rest : List Char) :
    fragments (escape c ++ rest) = (fragments rest).map (fragmentOf c :: ·) id := by
  unfold escape
  split_ifs with h₁ h₂ h₃ h₄ h₅ h₆ h₇ h₈
  · subst h₁; rfl
  · subst h₂; rfl
  · subst h₃; rfl
  · subst h₄; rfl
  · subst h₅; rfl
  · subst h₆; rfl
  · subst h₇; rfl
  · have hf : fragmentOf c = .unit c.toNat := by simp [fragmentOf, h₃, h₄, h₅, h₆, h₇, h₈]
    simp only [List.cons_append, List.nil_append, fragments, hexNumber?_control h₈, hf]
  · have hf : fragmentOf c = .char c := by simp [fragmentOf, h₈]
    rw [List.cons_append, List.nil_append, fragments, if_neg h₈, hf]
    all_goals simp [h₁, h₂]

theorem chars_fragmentOf (ending : Except Failure (List Char)) (c : Char) (fs : List Fragment) :
    chars ending (fragmentOf c :: fs) = (chars ending fs).map (c :: ·) := by
  unfold fragmentOf
  split_ifs with h
  · have ht : isTrailingUnit c.toNat = false := by simp [isTrailingUnit]; omega
    have hl : isLeadingUnit c.toNat = false := by simp [isLeadingUnit]; omega
    rw [chars.eq_def]
    simp [ht, hl]
  · rfl

theorem fragments_write (s rest : List Char) :
    fragments (s.flatMap escape ++ '"' :: rest) = (s.map fragmentOf, .ok rest) := by
  induction s with
  | nil => rfl
  | cons c s ih =>
    rw [List.flatMap_cons, List.append_assoc, fragments_escape, ih]
    rfl

theorem chars_fragments (rest s : List Char) :
    chars (.ok rest) (s.map fragmentOf) = .ok s := by
  induction s with
  | nil => rfl
  | cons c s ih =>
    rw [List.map_cons, chars_fragmentOf, ih]
    rfl

/-- A written literal is read back whole. -/
theorem scan_write (s : String) (rest : List Char) :
    scan (s.toList.flatMap escape ++ '"' :: rest) = (.whole s, rest) := by
  simp only [scan, fragments_write, chars_fragments]
  simp [Lexeme.whole, Except.map, Except.toOption]

end Literal

/-! ### Numerals -/

/-- What may follow a numeral without being taken for a part of it. -/
def Stops (rest : List Char) : Prop :=
  ∀ c ∈ rest.head?, c.isDigit = false ∧ c ≠ '.' ∧ c ≠ 'e' ∧ c ≠ 'E'

namespace Numeral

theorem toDigits_eq_cons (n : Nat) :
    ∃ d ds, Nat.toDigits 10 n = d :: ds ∧ d.isDigit ∧ ∀ c ∈ ds, c.isDigit := by
  obtain ⟨d, ds, hds⟩ := List.exists_cons_of_ne_nil (Nat.toDigits_ne_nil (n := n) (b := 10))
  have hall : ∀ c ∈ d :: ds, c.isDigit := fun c hc =>
    Nat.isDigit_of_mem_toDigits (b := 10) (n := n) (by decide) (by decide) (hds ▸ hc)
  exact ⟨d, ds, hds, hall d List.mem_cons_self, fun c hc => hall c (List.mem_cons_of_mem d hc)⟩

/-- The digits of a number other than zero do not start with one. -/
theorem head?_toDigits_ne_zero {n : Nat} (h : 0 < n) : (Nat.toDigits 10 n).head? ≠ some '0' := by
  induction n using Nat.strongRecOn with
  | ind n ih =>
    by_cases hn : n < 10
    · rw [Nat.toDigits_of_lt_base hn]
      have all : ∀ k ∈ List.range 10, 0 < k → [k.digitChar].head? ≠ some '0' := by decide
      exact all n (List.mem_range.2 hn) h
    · rw [Nat.toDigits_of_base_le (by decide) (by omega),
        List.head?_append_of_ne_nil _ Nat.toDigits_ne_nil]
      exact ih (n / 10) (by omega) (by omega)

theorem digitsOf_append {ds rest : List Char} (hds : ∀ c ∈ ds, c.isDigit) (hrest : Stops rest) :
    digitsOf (ds ++ rest) = ds ∧ afterDigits (ds ++ rest) = rest := by
  rw [digitsOf, afterDigits, List.takeWhile_append_of_pos hds, List.dropWhile_append_of_pos hds]
  cases rest with
  | nil => simp
  | cons c rest => simp [(hrest c rfl).1]

theorem scanFraction_stops (negative : Bool) (whole : List Char) {rest : List Char}
    (h : Stops rest) :
    scanFraction negative whole rest = (complete ⟨negative, whole, [], none⟩, rest) := by
  cases rest with
  | nil => rfl
  | cons c rest =>
    obtain ⟨-, hp, he, hE⟩ := h c rfl
    have htail : scanTail negative whole [] (c :: rest)
        = (complete ⟨negative, whole, [], none⟩, c :: rest) := by
      rw [scanTail.eq_def]
      simp [he, hE]
    rw [scanFraction, htail]
    simp [hp]

/-- A written numeral is read up to its last digit. -/
theorem scan_toDigits (n : Nat) {rest : List Char} (h : Stops rest) :
    scan (Nat.toDigits 10 n ++ rest) = (complete (ofNat n), rest) := by
  rcases n.eq_zero_or_pos with rfl | hn
  · have hd : digitsOf rest = [] := (digitsOf_append (List.forall_mem_nil _) h).1
    have hz : Nat.toDigits 10 0 = ['0'] := rfl
    simp [ofNat, hz, scan, scanWhole, hd, scanFraction_stops false _ h]
  · have hhead := head?_toDigits_ne_zero hn
    obtain ⟨d, ds, hds, hdigit, hdigits⟩ := toDigits_eq_cons n
    rw [hds] at hhead
    rw [ofNat, hds]
    obtain ⟨hd, ha⟩ := digitsOf_append hdigits h
    have hminus : d ≠ '-' := by rintro rfl; simp at hdigit
    have hzero : d ≠ '0' := by simpa using hhead
    rw [List.cons_append, scan, scanWhole]
    · simp [hzero, hdigit, hd, ha, scanFraction_stops false _ h]
    · simp [hminus]

theorem le_ofDigitChars (ds : List Char) (s : Nat) : s ≤ Nat.ofDigitChars 10 ds s := by
  induction ds generalizing s with
  | nil => exact Nat.le_refl s
  | cons d ds ih =>
    rw [Nat.ofDigitChars_cons]
    exact Nat.le_trans (by omega) (ih _)

theorem absorb_of_lt {ds : List Char} {s : Nat} (h : Nat.ofDigitChars 10 ds s < UInt64.size) :
    absorb s ds = (Nat.ofDigitChars 10 ds s, 0) := by
  induction ds generalizing s with
  | nil => rfl
  | cons d ds ih =>
    rw [Nat.ofDigitChars_cons, Nat.mul_comm] at h ⊢
    have hd := Nat.lt_of_le_of_lt (le_ofDigitChars ds _) h
    rw [absorb, if_pos hd, ih h]

theorem roundTo53_le {n : Nat} (h : n ≠ 0) : roundTo53 n ≤ 3 * n := by
  have hpow : 2 ^ (n.log2 + 1 - 53) ≤ 2 * n := by
    calc 2 ^ (n.log2 + 1 - 53) ≤ 2 ^ (n.log2 + 1) := Nat.pow_le_pow_right (by decide) (by omega)
      _ = 2 * 2 ^ n.log2 := by rw [Nat.pow_succ, Nat.mul_comm]
      _ ≤ 2 * n := Nat.mul_le_mul_left 2 (Nat.log2_self_le h)
  rw [roundTo53]
  generalize n.log2 + 1 - 53 = drop at hpow ⊢
  simp only [Nat.shiftLeft_eq, Nat.one_mul, Nat.shiftRight_eq_div_pow]
  have hdiv := Nat.div_mul_le_self n (2 ^ drop)
  split
  · rw [Nat.add_mul]
    omega
  · omega

theorem finite_ofNat {n : Nat} (h : n < UInt64.size) : (ofNat n).finite = true := by
  have hs : (ofNat n).significand = (n, 0) := by
    have ha : absorb 0 (Nat.toDigits 10 n) = (n, 0) := by
      rw [absorb_of_lt (by rwa [Nat.ofDigitChars_ten_toDigits]), Nat.ofDigitChars_ten_toDigits]
    simp [significand, ofNat, ha, absorb]
  rcases eq_or_ne n 0 with rfl | hn
  · simp [finite, hs]
  · have hone : roundTo53 1 = 1 := by decide
    have hlt : roundTo53 n < infinityFrom := by
      have := roundTo53_le hn
      rw [UInt64.size] at h
      rw [infinityFrom]
      omega
    simp [finite, hs, hone, hlt]

/-- The numeral of a natural number that fits in 64 bits is read back whole. -/
theorem scan_ofNat {n : Nat} (h : n < UInt64.size) {rest : List Char} (hrest : Stops rest) :
    scan (Nat.toDigits 10 n ++ rest) = (.whole (ofNat n), rest) := by
  rw [scan_toDigits n hrest, complete, finite_ofNat h]
  rfl

end Numeral

end QuantumCircuit.Json
