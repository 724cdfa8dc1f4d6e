import QuantumCircuit.Proofs.Invariant

/-! A refused call changes nothing. For a register this says more than it seems: its units
can also be declared one after the other, each first entered in the set in which units are
looked up and then in the list, and an error in the middle of that would leave a part of the
register behind. In a circuit that can come about, no unit of an unused name has been declared,
so none of these steps is refused, and the loop does what the declaration at one stroke does. -/

namespace QuantumCircuit

namespace Build

/-! ### Units one after the other -/

section Units

variable {α : Type} [Ord α] [Std.TransOrd α] (k : Kind α)

/-- Declares a unit in two steps: the set takes it in any case and tells whether it had it
before; the list takes it if not. -/
def enter (u : α) : Build Unit := do
  let known := u ∈ k.set (← get)
  modify fun c => k.put c (k.list c) ((k.set c).insert u)
  if known then throw (.duplicateUnit (k.id u))
  modify fun c => k.put c (k.list c ++ [u]) (k.set c)

/-- The units of a register, entered one after the other. -/
def enterRegister (name : String) (us : List α) : Build Unit := do
  if (k.list (← get)).any fun u => (k.id u).register == name then throw (.duplicateRegister name)
  forM us (enter k)

end Units

def enterQubit (q : Qubit) : Build Unit := enter .qubit q

def enterBit (b : Bit) : Build Unit := enter .bit b

/-- A register of qubits, entered one after the other. -/
def enterQubitRegister (name : String) (size : UInt32) : Build (List Qubit) := do
  let qubits := (indicesBelow size).map (Qubit.inRegister name)
  enterRegister .qubit name qubits
  return qubits

/-- A register of bits, entered one after the other. -/
def enterBitRegister (name : String) (size : UInt32) : Build Register := do
  let register : Register := ⟨name, size⟩
  enterRegister .bit name register.bits
  return register

section Units

variable {α : Type} [Ord α] [Std.TransOrd α] [Std.LawfulEqOrd α]

theorem insert_of_mem {s : Std.ExtTreeSet α} {u : α} (h : u ∈ s) : s.insert u = s := by
  apply Std.ExtTreeSet.ext_mem
  intro v
  rw [mem_set_insert, or_iff_right_iff_imp]
  rintro rfl
  exact h

theorem append_append (k : Kind α) (c : Circuit) (us vs : List α) :
    k.append (k.append c us) vs = k.append c (us ++ vs) := by
  have hset : ((k.set c).insertMany us).insertMany vs = (k.set c).insertMany (us ++ vs) :=
    Std.ExtTreeSet.ext_mem fun u => by simp [or_assoc]
  rw [Kind.append, Kind.append, Kind.append, k.list_put, k.set_put, k.put_put, hset,
    List.append_assoc]

theorem enter_run (k : Kind α) (u : α) (c : Circuit) :
    (enter k u).run c = (declare k u).run c := by
  rw [declare_run]
  by_cases h : u ∈ k.set c
  · simp [enter, h, insert_of_mem h, k.put_self]
  · simp [enter, h, Kind.append, k.list_put, k.set_put, k.put_put]

/-- Units that are new are entered without a refusal. -/
theorem forM_enter_run (k : Kind α) {us : List α} (hn : us.Nodup) {c : Circuit}
    (hnew : ∀ u ∈ us, u ∉ k.set c) : (forM us (enter k)).run c = .ok () (k.append c us) := by
  induction us generalizing c with
  | nil =>
    have hsame : k.append c [] = c := by simp [Kind.append, k.put_self]
    rw [hsame]
    rfl
  | cons u us ih =>
    rw [List.forall_mem_cons] at hnew
    rw [List.nodup_cons] at hn
    -- entering the first one leaves the others new
    have hrest : ∀ v ∈ us, v ∉ k.set (k.append c [u]) := by
      intro v hv
      have hne : u ≠ v := fun e => hn.1 (e ▸ hv)
      simp [Kind.append, k.set_put, hne, hnew.2 v hv]
    rw [List.forM_cons, EStateM.run_bind, enter_run, declare_run, if_neg hnew.1]
    exact (ih hn.2 hrest).trans (by rw [append_append, List.singleton_append])

variable {k : Kind α} {c : Circuit} {name : String} {us : List α}

/-- Where set and list agree, the units of an unused name are entered without a refusal. -/
theorem enter_of_unused (hc : ∀ u, u ∈ k.set c ↔ u ∈ k.list c) (hn : us.Nodup)
    (hus : ∀ u ∈ us, (k.id u).register = name)
    (hname : ¬ ∃ u ∈ k.list c, (k.id u).register = name) :
    (forM us (enter k)).run c = .ok () (k.append c us) := by
  refine forM_enter_run k hn fun u hu => ?_
  rw [hc]
  exact notMem_of_unused k hus hname u hu

theorem enterRegister_run (hc : ∀ u, u ∈ k.set c ↔ u ∈ k.list c) (hn : us.Nodup)
    (hus : ∀ u ∈ us, (k.id u).register = name) :
    (enterRegister k name us).run c = (declareRegister k name us).run c := by
  rw [declareRegister_run]
  by_cases hname : ∃ u ∈ k.list c, (k.id u).register = name
  · simp [enterRegister, hname]
  · simp only [enterRegister, List.any_eq_true, beq_iff_eq, EStateM.run_bind, EStateM.run_get,
      hname, if_false]
    exact enter_of_unused hc hn hus hname

end Units

theorem enterQubitRegister_run {c : Circuit} (hc : c.Indexed) (name : String) (size : UInt32) :
    (enterQubitRegister name size).run c = (declareQubitRegister name size).run c := by
  rw [enterQubitRegister, declareQubitRegister, EStateM.run_bind, EStateM.run_bind,
    enterRegister_run hc.mem_qubitSet (qubits_inRegister_nodup name size)
      (fun _ => register_of_mem_inRegister)]

theorem enterBitRegister_run {c : Circuit} (hc : c.Indexed) (name : String) (size : UInt32) :
    (enterBitRegister name size).run c = (declareBitRegister name size).run c := by
  rw [enterBitRegister, declareBitRegister, EStateM.run_bind, EStateM.run_bind,
    enterRegister_run hc.mem_bitSet (Register.bits_nodup ⟨name, size⟩)
      (fun _ => Register.register_of_mem_bits)]

end Build

/-- A call that is refused leaves the circuit as it was. Declaring a unit by way of the set and
then the list, or a register unit by unit, does the same as the call itself, and where the
name is unused no unit of a register is refused. -/
theorem Reachable.refused_call {c : Circuit} (h : Reachable c) :
    (∀ (call : Call) (e : Error) (c' : Circuit), call.action.run c = .error e c' →
        c' = c ∧ call.leaves c = c) ∧
      (∀ q, (Build.enterQubit q).run c = (Build.declareQubit q).run c) ∧
      (∀ b, (Build.enterBit b).run c = (Build.declareBit b).run c) ∧
      (∀ name size,
        (Build.enterQubitRegister name size).run c = (Build.declareQubitRegister name size).run c ∧
          ((¬ ∃ q ∈ c.qubits, q.id.register = name) → ∃ c',
            (forM ((indicesBelow size).map (Qubit.inRegister name)) Build.enterQubit).run c =
              .ok () c')) ∧
      ∀ name size,
        (Build.enterBitRegister name size).run c = (Build.declareBitRegister name size).run c ∧
          ((¬ ∃ b ∈ c.bits, b.id.register = name) → ∃ c',
            (forM (Register.mk name size).bits Build.enterBit).run c = .ok () c') := by
  have hc := h.valid.indexed
  refine ⟨?_, ?_, ?_, ?_, ?_⟩
  · intro call e c' hrun
    obtain ⟨rfl, -⟩ := call.action_makes.of_error hrun
    exact ⟨rfl, by rw [Call.leaves, Build.leaves, hrun]⟩
  · intro q
    exact Build.enter_run .qubit q c
  · intro b
    exact Build.enter_run .bit b c
  · intro name size
    refine ⟨Build.enterQubitRegister_run hc name size, fun hn => ?_⟩
    exact ⟨_, Build.enter_of_unused hc.mem_qubitSet (qubits_inRegister_nodup name size)
      (fun _ => register_of_mem_inRegister) hn⟩
  · intro name size
    refine ⟨Build.enterBitRegister_run hc name size, fun hn => ?_⟩
    exact ⟨_, Build.enter_of_unused hc.mem_bitSet (Register.bits_nodup ⟨name, size⟩)
      (fun _ => Register.register_of_mem_bits) hn⟩

/-- A flip in a box, and then a box whose circuit exchanges its qubits. -/
def Circuit.boxedExchange : Circuit :=
  (Call.add ⟨.box ⟨0⟩ .guardedFlip, [.ofIndex 0, .ofIndex 1], [.ofIndex 0], none, none⟩).leaves
    ((Call.box ⟨0⟩ .flip [.ofIndex 0] none).leaves
      ((Call.declareBitRegister "c" 1).leaves (.withQubits 2)))

theorem Reachable.boxedExchange : Reachable .boxedExchange := by
  refine .call _ (.call _ (.call _ (.withQubits 2) ?_) ?_) ?_
  · intro body hb; cases hb
  · intro body hb
    cases hb
    exact .call _ (.withQubits 1) fun body hb => by cases hb
  · intro body hb
    cases hb
    exact .guardedFlip

/-- Inlining is refused at the second box, and a register of three qubits is entered. -/
theorem Reachable.refused_call_boxedExchange :
    (∃ e c', Call.inline.action.run .boxedExchange = .error e c' ∧
      c' = .boxedExchange ∧ Call.inline.leaves .boxedExchange = .boxedExchange) ∧
      ∃ c', (forM ((indicesBelow 3).map (Qubit.inRegister "r")) Build.enterQubit).run
        .boxedExchange = .ok () c' := by
  obtain ⟨hcall, -, -, hregister, -⟩ := Reachable.boxedExchange.refused_call
  refine ⟨⟨_, _, rfl, hcall .inline _ _ rfl⟩, (hregister "r" 3).2 ?_⟩
  decide +kernel

end QuantumCircuit
