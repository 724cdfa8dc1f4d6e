import QuantumCircuit.Circuit.Build

/-! The implicit permutation of a circuit: where each qubit ends up after the last
command. It is given by pairs of declared qubits in which the sources and the targets
are the same set; a qubit that is not listed stays where it is. -/

namespace QuantumCircuit

namespace Circuit

/-- Where a qubit ends up. -/
def image (c : Circuit) (q : Qubit) : Qubit := (c.permutation.lookup q).getD q

/-- Every qubit with its image, in the order of declaration. -/
def implicitPermutation (c : Circuit) : List (Qubit × Qubit) := c.qubits.map fun q => (q, c.image q)

def hasIdentityPermutation (c : Circuit) : Bool := c.permutation.isEmpty

end Circuit

/-- Both sides of each pair must be declared, and be new among the sources and the
targets before it. -/
def checkPairs (declared sources targets : Std.ExtTreeSet Qubit) :
    List (Qubit × Qubit) → Except Error Unit
  | [] => .ok ()
  | (source, target) :: pairs =>
    if source ∉ declared then .error (.qubitNotFound source none)
    else if target ∉ declared then .error (.qubitNotFound target none)
    else if source ∈ sources then .error (.invalidDocument (.repeatedSource source))
    else if target ∈ targets then .error (.invalidDocument (.repeatedTarget target))
    else checkPairs declared (sources.insert source) (targets.insert target) pairs

/-- Whether the pairs make a permutation of declared qubits. -/
def checkPermutation (declared : Std.ExtTreeSet Qubit) (pairs : List (Qubit × Qubit)) :
    Except Error Unit := do
  checkPairs declared ∅ ∅ pairs
  let sources := Std.ExtTreeSet.ofList (pairs.map Prod.fst)
  match (pairs.map Prod.snd).find? (· ∉ sources) with
  | some target => throw (.invalidDocument (.targetNotSource target))
  | none => return ()

/-- The pairs that move a qubit, in the order in which `qubits` lists them. -/
def movedPairs (qubits : List Qubit) (pairs : List (Qubit × Qubit)) : List (Qubit × Qubit) :=
  let moved := pairs.filter fun (source, target) => source ≠ target
  qubits.filterMap fun q => (moved.lookup q).map (q, ·)

/-- Replaces the implicit permutation. -/
def Build.setPermutation (pairs : List (Qubit × Qubit)) : Build Unit := do
  Build.ofExcept (checkPermutation (← get).qubitSet pairs)
  modify fun c => { c with permutation := movedPairs c.qubits pairs }

end QuantumCircuit
