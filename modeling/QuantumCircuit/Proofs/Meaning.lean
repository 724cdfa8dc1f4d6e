import QuantumCircuit.Proofs.Reachable

/-! What commands mean, and that inlining keeps it. The quantum state and what gates,
resets and measurements do to it are arbitrary; bits have values. A condition is tested
when its command is reached. A box tests its condition once and then runs the commands
of its circuit on its own arguments. In the inlined list the condition of the box is
tested before every one of these commands, and gives the same answer each time because
none of them writes a bit that it reads. Phases have no meaning here, and neither has
the permutation of a circuit, which inlining refuses inside boxes. -/

namespace QuantumCircuit

universe u

/-- What gates, resets and measurements on a list of qubits do to a quantum state. -/
structure Interpretation (Q : Type u) where
  gate : OpType → List Qubit → Q → Q
  reset : List Qubit → Q → Q
  measure : List Qubit → Q → Q × Bool

/-- A quantum state and the values of all bits. -/
structure Memory (Q : Type u) where
  quantum : Q
  bits : Bit → Bool

/-- The number that a list of digits spells, the first one least significant. -/
def littleEndian : List Bool → Nat
  | [] => 0
  | b :: bs => b.toNat + 2 * littleEndian bs

/-- Whether the bits of a condition spell its value. -/
def Condition.holds (condition : Condition) (values : Bit → Bool) : Bool :=
  littleEndian (condition.bits.map values) == condition.value.toNat

/-- Whether there is no condition, or it holds. -/
def passes (guard : Option Condition) (values : Bit → Bool) : Bool :=
  guard.all (Condition.holds · values)

def Renaming.identity : Renaming := ⟨id, id⟩

section Run

variable {Q : Type u} (I : Interpretation Q)

mutual

/-- Runs commands one after the other, on renamed units. -/
def runAll (ρ : Renaming) : List Command → Memory Q → Memory Q
  | [], m => m
  | command :: commands, m => runAll ρ commands (command.run ρ m)

/-- Runs a command if its condition holds when it is reached. -/
def Command.run (ρ : Renaming) : Command → Memory Q → Memory Q
  | ⟨op, qubits, bits, condition, _⟩, m =>
    if passes condition (m.bits ∘ ρ.bit) then
      op.run (qubits.map ρ.qubit) (bits.map ρ.bit) m
    else m

/-- Runs an operation on its arguments. A measurement writes the outcome to its bit. -/
def Operation.run (qubits : List Qubit) (bits : List Bit) : Operation → Memory Q → Memory Q
  | .gate type, m => { m with quantum := I.gate type qubits m.quantum }
  | .reset, m => { m with quantum := I.reset qubits m.quantum }
  | .measure, m =>
    let (quantum, outcome) := I.measure qubits m.quantum
    ⟨quantum, fun b => if b ∈ bits then outcome else m.bits b⟩
  | .box _ body, m => body.run qubits bits m

/-- Runs a circuit with its units renamed to arguments, place by place. -/
def Circuit.run (qubits : List Qubit) (bits : List Bit) : Circuit → Memory Q → Memory Q
  | ⟨_, _, ownQubits, ownBits, commands, _, _, _⟩, m =>
    runAll ⟨positional ownQubits qubits, positional ownBits bits⟩ commands m

end

/-! ### One command -/

@[simp] theorem runAll_nil (ρ : Renaming) (m : Memory Q) : runAll I ρ [] m = m := by
  rw [runAll]

@[simp] theorem runAll_cons (ρ : Renaming) (command : Command) (commands : List Command)
    (m : Memory Q) :
    runAll I ρ (command :: commands) m = runAll I ρ commands (command.run I ρ m) := by
  rw [runAll]

theorem runAll_append (ρ : Renaming) (commands more : List Command) (m : Memory Q) :
    runAll I ρ (commands ++ more) m = runAll I ρ more (runAll I ρ commands m) := by
  induction commands generalizing m with
  | nil => simp
  | cons command commands ih => simp [ih]

theorem Command.run_eq (ρ : Renaming) (command : Command) (m : Memory Q) :
    command.run I ρ m =
      if passes command.condition (m.bits ∘ ρ.bit) then
        command.op.run I (command.qubits.map ρ.qubit) (command.bits.map ρ.bit) m
      else m := by
  cases command
  rw [Command.run]

theorem Circuit.run_eq (qubits : List Qubit) (bits : List Bit) (c : Circuit) (m : Memory Q) :
    c.run I qubits bits m = runAll I (.ofBox c qubits bits) c.commands m := by
  cases c
  rw [Circuit.run]
  rfl

theorem Operation.run_box (qubits : List Qubit) (bits : List Bit) (id : Uuid) (body : Circuit)
    (m : Memory Q) :
    (Operation.box id body).run I qubits bits m =
      runAll I (.ofBox body qubits bits) body.commands m := by
  rw [Operation.run, Circuit.run_eq]

/-- An operation that is no box changes only the bits among its arguments. -/
theorem Operation.run_bits {op : Operation} (h : op.isBox = false) (qubits : List Qubit)
    {bits : List Bit} (m : Memory Q) {b : Bit} (hb : b ∉ bits) :
    (op.run I qubits bits m).bits b = m.bits b := by
  cases op with
  | box id body => simp [Operation.isBox] at h
  | gate type => rw [Operation.run]
  | reset => rw [Operation.run]
  | measure =>
    rw [Operation.run]
    simp [hb]

theorem Command.run_bits {command : Command} (h : command.op.isBox = false) (ρ : Renaming)
    (m : Memory Q) {b : Bit} (hb : b ∉ command.bits.map ρ.bit) :
    (command.run I ρ m).bits b = m.bits b := by
  rw [Command.run_eq]
  split_ifs
  · exact Operation.run_bits I h _ m hb
  · rfl

@[simp] theorem passes_none (v : Bit → Bool) : passes none v = true := rfl

theorem passes_congr {guard : Option Condition} {v w : Bit → Bool}
    (h : ∀ condition ∈ guard, ∀ b ∈ condition.bits, v b = w b) :
    passes guard v = passes guard w := by
  cases guard with
  | none => rfl
  | some condition =>
    have : condition.bits.map v = condition.bits.map w :=
      List.map_congr_left (h condition rfl)
    simp [passes, Condition.holds, this]

theorem passes_renamed (own : Option Condition) (f : Bit → Bit) (v : Bit → Bool) :
    passes (own.map (Condition.renamed f)) v = passes own (v ∘ f) := by
  cases own <;> simp [passes, Condition.holds]

/-! ### The commands of a box -/

/-- Different bits of a list keep different names. -/
def Renaming.Separates (ρ : Renaming) (bits : List Bit) : Prop :=
  ∀ a ∈ bits, ∀ b ∈ bits, ρ.bit a = ρ.bit b → a = b

section Box

variable {body : Circuit} {qubits : List Qubit} {bits : List Bit}

/-- Renaming to the arguments and then once more, on the units of the circuit. -/
theorem Boxed.ofBox_map_qubit (h : Boxed body qubits bits) (ρ : Renaming) {q : Qubit}
    (hq : q ∈ body.qubits) :
    (Renaming.ofBox body (qubits.map ρ.qubit) (bits.map ρ.bit)).qubit q =
      ρ.qubit ((Renaming.ofBox body qubits bits).qubit q) :=
  positional_map h.qubits_length ρ.qubit hq

theorem Boxed.ofBox_map_bit (h : Boxed body qubits bits) (ρ : Renaming) {b : Bit}
    (hb : b ∈ body.bits) :
    (Renaming.ofBox body (qubits.map ρ.qubit) (bits.map ρ.bit)).bit b =
      ρ.bit ((Renaming.ofBox body qubits bits).bit b) :=
  positional_map h.bits_length ρ.bit hb

/-- A renamed command runs when the guard of the box holds, and then like the command on
the arguments of the box. -/
theorem Boxed.run_renamed (h : Boxed body qubits bits) (ρ : Renaming) (guard : Option Condition)
    {command : Command} (hc : command.Fits body.qubits body.bits)
    (hn : ¬ command.Nested guard) (m : Memory Q) :
    (command.renamed (.ofBox body qubits bits) guard).run I ρ m =
      if passes guard (m.bits ∘ ρ.bit) then
        command.run I (.ofBox body (qubits.map ρ.qubit) (bits.map ρ.bit)) m
      else m := by
  have hq : (command.qubits.map (Renaming.ofBox body qubits bits).qubit).map ρ.qubit =
      command.qubits.map (Renaming.ofBox body (qubits.map ρ.qubit) (bits.map ρ.bit)).qubit := by
    rw [List.map_map]
    exact List.map_congr_left fun q hq =>
      (h.ofBox_map_qubit ρ (hc.qubits_declared q hq)).symm
  have hb : (command.bits.map (Renaming.ofBox body qubits bits).bit).map ρ.bit =
      command.bits.map (Renaming.ofBox body (qubits.map ρ.qubit) (bits.map ρ.bit)).bit := by
    rw [List.map_map]
    exact List.map_congr_left fun b hb => (h.ofBox_map_bit ρ (hc.written_declared b hb)).symm
  have hp : passes (command.condition.map (Condition.renamed (Renaming.ofBox body qubits bits).bit))
      (m.bits ∘ ρ.bit) = passes command.condition
        (m.bits ∘ (Renaming.ofBox body (qubits.map ρ.qubit) (bits.map ρ.bit)).bit) := by
    rw [passes_renamed]
    refine passes_congr fun condition hcond b hb => ?_
    have hm : b ∈ command.conditionBits := by
      rw [Option.mem_def] at hcond
      simpa [Command.conditionBits, hcond] using hb
    simp only [Function.comp_apply,
      h.ofBox_map_bit ρ (hc.bits_declared b (List.mem_append_left _ hm))]
  rw [Command.run_eq, Command.run_eq, ← hp]
  simp only [Command.renamed, hq, hb]
  cases guard with
  | none => simp only [Option.or_none, passes_none, if_true]
  | some g =>
    have hnone : command.condition = none := by simpa [Command.Nested] using hn
    simp only [hnone, Option.map_none, Option.none_or, passes_none, if_true]

/-- The commands of a box after renaming: if the guard holds they run like those of the
circuit, and if not they do nothing. The guard keeps its value on the way, since the
bits that it reads are none of the arguments, which alone are written. -/
theorem Boxed.runAll_renamed (h : Boxed body qubits bits) {ρ : Renaming}
    {guard : Option Condition} {declared : List Bit} (hρ : ρ.Separates declared)
    (hbits : ∀ b ∈ bits, b ∈ declared)
    (hguard : ∀ condition ∈ guard, ∀ b ∈ condition.bits, b ∈ declared ∧ b ∉ bits)
    {commands : List Command}
    (hc : ∀ d ∈ commands, d.Fits body.qubits body.bits ∧ d.op.isBox = false)
    (hn : ∀ d ∈ commands, ¬ d.Nested guard) (m : Memory Q) :
    runAll I ρ (commands.map (Command.renamed (.ofBox body qubits bits) guard)) m =
      if passes guard (m.bits ∘ ρ.bit) then
        runAll I (.ofBox body (qubits.map ρ.qubit) (bits.map ρ.bit)) commands m
      else m := by
  induction commands generalizing m with
  | nil => simp
  | cons d commands ih =>
    obtain ⟨hd, hbox⟩ := hc d List.mem_cons_self
    rw [List.map_cons, runAll_cons, runAll_cons,
      h.run_renamed I ρ guard hd (hn d List.mem_cons_self),
      ih (fun e he => hc e (List.mem_cons_of_mem d he))
        fun e he => hn e (List.mem_cons_of_mem d he)]
    by_cases hp : passes guard (m.bits ∘ ρ.bit)
    · rw [if_pos hp, if_pos hp, if_pos]
      rw [← hp]
      refine passes_congr fun condition hcond b hb => ?_
      obtain ⟨hdecl, hout⟩ := hguard condition hcond b hb
      refine Command.run_bits I hbox _ m fun hm => ?_
      obtain ⟨a, ha, e⟩ := List.mem_map.1 hm
      have hin := h.bit_mem (hd.written_declared a ha)
      rw [h.ofBox_map_bit ρ (hd.written_declared a ha)] at e
      exact hout (hρ _ (hbits _ hin) b hdecl e ▸ hin)
    · rw [if_neg hp, if_neg hp, if_neg hp]

end Box

/-! ### Circuits -/

theorem Boxed.separates {body : Circuit} {qubits : List Qubit} {bits declared : List Bit}
    (h : Boxed body qubits bits) {ρ : Renaming} (hρ : ρ.Separates declared)
    (hbits : ∀ b ∈ bits, b ∈ declared) :
    (Renaming.ofBox body (qubits.map ρ.qubit) (bits.map ρ.bit)).Separates body.bits := by
  intro a ha b hb e
  rw [h.ofBox_map_bit ρ ha, h.ofBox_map_bit ρ hb] at e
  exact h.bit_inj ha hb (hρ _ (hbits _ (h.bit_mem ha)) _ (hbits _ (h.bit_mem hb)) e)

/-- One command and the commands that stand for it run alike. -/
theorem Command.run_inlined {c : Circuit} (hv : c.Valid) {command : Command}
    (hm : command ∈ c.commands) {ρ : Renaming} (hρ : ρ.Separates c.bits)
    (ih : ∀ id body, command.op = .box id body → ∀ inner, body.inlined = .ok inner →
      ∀ τ : Renaming, τ.Separates body.bits → ∀ m : Memory Q,
        runAll I τ inner m = runAll I τ body.commands m)
    {part : List Command} (hpart : command.inlined = .ok part) (m : Memory Q) :
    runAll I ρ part m = command.run I ρ m := by
  have hfit := hv.fits command hm
  cases hop : command.op with
  | box id body =>
    have hbox := hfit.boxed hop
    have hbody := (hv.bodies command hm id body hop).inlined_fits
    obtain ⟨_, inner, hin, hn, rfl⟩ := (Command.inlined_box_eq_ok_iff hop hbox
      fun inner hin e he => (hbody inner hin e he).1).1 hpart
    have hguard : ∀ condition ∈ command.condition, ∀ b ∈ condition.bits,
        b ∈ c.bits ∧ b ∉ command.bits := by
      intro condition hcond b hb
      have hb' : b ∈ command.conditionBits := by
        rw [Option.mem_def] at hcond
        simpa [Command.conditionBits, hcond] using hb
      exact ⟨hfit.bits_declared b (List.mem_append_left _ hb'), fun hw =>
        (List.nodup_append.1 hfit.bits_nodup).2.2 b hb' b hw rfl⟩
    rw [hbox.runAll_renamed I hρ hfit.written_declared hguard (hbody inner hin) hn,
      ih id body hop inner hin _ (hbox.separates hρ hfit.written_declared), Command.run_eq, hop,
      Operation.run_box]
  | _ =>
    rw [Command.inlined_of_not_box (by rw [hop]; rfl)] at hpart
    cases hpart
    simp

/-- The inlined commands of a valid circuit run like its own, on any renamed units that
keep its bits apart. -/
theorem Circuit.Valid.runAll_inlined {c : Circuit} (h : c.Valid) :
    ∀ flat, c.inlined = .ok flat → ∀ ρ : Renaming, ρ.Separates c.bits → ∀ m : Memory Q,
      runAll I ρ flat m = runAll I ρ c.commands m := by
  induction h with
  | @intro c indexed permutes fits bodies ih =>
    intro flat hflat ρ hρ m
    have hv : c.Valid := .intro indexed permutes fits bodies
    rw [Circuit.inlined_eq] at hflat
    refine inlineAll_rec (R := fun commands flat => ∀ m : Memory Q,
      runAll I ρ flat m = runAll I ρ commands m) hflat (fun _ => rfl) ?_ m
    intro command hm part rest flat hpart hrest m
    rw [runAll_append, runAll_cons, Command.run_inlined I hv hm hρ (ih command hm) hpart, hrest]

/-- Inlining keeps what a circuit means: its commands give the same quantum state and the
same values of all bits before and after, whatever the interpretation and the state to
start from. -/
theorem Reachable.runAll_inline {c c' : Circuit} (h : Reachable c) {n : Nat}
    (hok : Build.inline.run c = .ok n c') (m : Memory Q) :
    runAll I .identity c'.commands m = runAll I .identity c.commands m := by
  rw [Build.inline_run] at hok
  cases hflat : c.inlined with
  | error e => rw [hflat] at hok; cases hok
  | ok flat =>
    rw [hflat] at hok
    cases hok
    exact h.valid.runAll_inlined I flat hflat .identity (fun a _ b _ e => e) m

end Run

/-- A circuit that measures its qubit. -/
def Circuit.readout : Circuit :=
  (Call.measure (.ofIndex 0) (.ofIndex 0)).leaves
    ((Call.declareBitRegister "c" 1).leaves (.withQubits 1))

/-- A circuit with a readout of its second qubit into its first bit, in a box that runs if
its second bit is set. -/
def Circuit.guardedReadout : Circuit :=
  (Call.add ⟨.box ⟨0⟩ readout, [.ofIndex 1], [.ofIndex 0], some (.ifBit (.ofIndex 1)), none⟩).leaves
    ((Call.declareBitRegister "c" 2).leaves (.withQubits 2))

theorem Reachable.guardedReadout : Reachable .guardedReadout := by
  refine .call _ (.call _ (.withQubits 2) fun body hb => by cases hb) fun body hb => ?_
  cases hb
  exact .call _ (.call _ (.withQubits 1) fun body hb => by cases hb) fun body hb => by cases hb

/-- One qubit for all, with its value known. -/
def Interpretation.classical : Interpretation Bool where
  gate _ _ q := !q
  reset _ _ := false
  measure _ q := (q, q)

theorem Reachable.runAll_inline_guardedReadout :
    Build.inline.run .guardedReadout = .ok 1 (Build.inline.leaves .guardedReadout) ∧
      (Build.inline.leaves .guardedReadout).commands ≠ Circuit.guardedReadout.commands ∧
      runAll .classical .identity (Build.inline.leaves .guardedReadout).commands
          ⟨false, fun _ => true⟩ =
        runAll .classical .identity Circuit.guardedReadout.commands ⟨false, fun _ => true⟩ := by
  have hok : Build.inline.run .guardedReadout = .ok 1 (Build.inline.leaves .guardedReadout) := rfl
  refine ⟨hok, ?_, Reachable.guardedReadout.runAll_inline .classical hok _⟩
  change [_] ≠ [_]
  simp

end QuantumCircuit
