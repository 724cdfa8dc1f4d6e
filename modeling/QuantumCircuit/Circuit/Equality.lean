import QuantumCircuit.Circuit.Basic

/-! Circuits can be compared: two are equal when all their parts are, down to the
circuits inside boxes. -/

namespace QuantumCircuit

mutual

def Operation.decEq : (a b : Operation) → Decidable (a = b)
  | .gate a, .gate b =>
    if h : a = b then isTrue (by rw [h]) else isFalse (by simp [h])
  | .measure, .measure => isTrue rfl
  | .reset, .reset => isTrue rfl
  | .box i c, .box j d =>
    if h : i = j then
      match c.decEq d with
      | isTrue e => isTrue (by rw [h, e])
      | isFalse e => isFalse (by simp [e])
    else isFalse (by simp [h])
  | .gate _, .measure => isFalse (by simp)
  | .gate _, .reset => isFalse (by simp)
  | .gate _, .box _ _ => isFalse (by simp)
  | .measure, .gate _ => isFalse (by simp)
  | .measure, .reset => isFalse (by simp)
  | .measure, .box _ _ => isFalse (by simp)
  | .reset, .gate _ => isFalse (by simp)
  | .reset, .measure => isFalse (by simp)
  | .reset, .box _ _ => isFalse (by simp)
  | .box _ _, .gate _ => isFalse (by simp)
  | .box _ _, .measure => isFalse (by simp)
  | .box _ _, .reset => isFalse (by simp)

def Command.decEq : (a b : Command) → Decidable (a = b)
  | ⟨op₁, q₁, b₁, c₁, g₁⟩, ⟨op₂, q₂, b₂, c₂, g₂⟩ =>
    if h : q₁ = q₂ ∧ b₁ = b₂ ∧ c₁ = c₂ ∧ g₁ = g₂ then
      match op₁.decEq op₂ with
      | isTrue e => isTrue (by simp [h, e])
      | isFalse e => isFalse (by simp [e])
    else isFalse fun e => h (by cases e; exact ⟨rfl, rfl, rfl, rfl⟩)

def Circuit.decEq : (a b : Circuit) → Decidable (a = b)
  | ⟨n₁, p₁, q₁, b₁, c₁, m₁, s₁, t₁⟩, ⟨n₂, p₂, q₂, b₂, c₂, m₂, s₂, t₂⟩ =>
    if h : n₁ = n₂ ∧ p₁ = p₂ ∧ q₁ = q₂ ∧ b₁ = b₂ ∧ m₁ = m₂ ∧ s₁ = s₂ ∧ t₁ = t₂ then
      match commandsDecEq c₁ c₂ with
      | isTrue e => isTrue (by simp [h, e])
      | isFalse e => isFalse (by simp [e])
    else isFalse fun e => h (by cases e; exact ⟨rfl, rfl, rfl, rfl, rfl, rfl, rfl⟩)

def commandsDecEq : (as bs : List Command) → Decidable (as = bs)
  | [], [] => isTrue rfl
  | [], _ :: _ => isFalse (by simp)
  | _ :: _, [] => isFalse (by simp)
  | a :: as, b :: bs =>
    match a.decEq b with
    | isTrue e =>
      match commandsDecEq as bs with
      | isTrue f => isTrue (by rw [e, f])
      | isFalse f => isFalse (by simp [f])
    | isFalse e => isFalse (by simp [e])

end

instance : DecidableEq Operation := Operation.decEq

instance : DecidableEq Command := Command.decEq

instance : DecidableEq Circuit := Circuit.decEq

end QuantumCircuit
