import CircuitNotes.Gate.Template

/-! The gates that can be explained, by the mnemonic of their call. -/
namespace CircuitNotes

structure CatalogEntry where
  mnemonic : Text
  display : Text
  template : Text
  arity : Arity := .qubits
  deriving DecidableEq, Repr

namespace Catalog

open Template (hole)

def controlledNot : CatalogEntry :=
  { mnemonic := "cx",display := "CNOT"
    template := "CNOT flips the target " ++ hole "target" ++ " if the control " ++ hole "control" ++
      " is in state |1⟩." }

def controlledY : CatalogEntry :=
  { mnemonic := "cy",display := "Controlled-Y"
    template := "Controlled-Y applies Pauli-Y to the target " ++ hole "target" ++
      " if the control " ++ hole "control" ++ " is |1⟩." }

def controlledZ : CatalogEntry :=
  { mnemonic := "cz",display := "Controlled-Z"
    template := "Controlled-Z flips the phase of the target " ++ hole "target" ++
      " if the control " ++ hole "control" ++ " is |1⟩." }

def controlledHadamard : CatalogEntry :=
  { mnemonic := "ch",display := "Controlled-H"
    template := "Controlled-Hadamard puts the target " ++ hole "target" ++
      " into superposition if the control " ++ hole "control" ++ " is |1⟩." }

def toffoli : CatalogEntry :=
  { mnemonic := "ccx",display := "Toffoli"
    template := "Toffoli (CCX) flips the target " ++ hole "qubit3" ++ " only if **both** controls " ++
      hole "qubit1" ++ " and " ++ hole "qubit2" ++ " are |1⟩." }

def swap : CatalogEntry :=
  { mnemonic := "swap",display := "SWAP"
    template := "SWAP exchanges the quantum states between " ++ hole "qubit1" ++ " and " ++
      hole "qubit2" ++ "." }

def fredkin : CatalogEntry :=
  { mnemonic := "cswap",display := "Fredkin"
    template := "Fredkin (CSWAP) exchanges " ++ hole "qubit2" ++ " and " ++ hole "qubit3" ++
      " only if the control " ++ hole "qubit1" ++ " is |1⟩." }

def rotation (mnemonic axis : String) : CatalogEntry :=
  { mnemonic := mnemonic,display := "R" ++ axis
    template := "R" ++ axis ++ " rotates " ++ hole "qubit" ++ " around the " ++ axis ++ "-axis by " ++
      hole "theta" ++ "."
    arity := .angleThenQubit }

def controlledRotation (mnemonic axis : String) : CatalogEntry :=
  { mnemonic := mnemonic,display := "CR" ++ axis
    template := "CR" ++ axis ++ " rotates the target " ++ hole "target" ++ " around the " ++ axis ++
      "-axis by " ++ hole "theta" ++ " if the control " ++ hole "control" ++ " is |1⟩."
    arity := .angleThenQubits }

def universal (mnemonic display : String) : CatalogEntry :=
  { mnemonic := mnemonic,display := display
    template := display ++ " rotates " ++ hole "qubit" ++ " with angles θ = " ++ hole "theta" ++
      ", φ = " ++ hole "phi" ++ ", and λ = " ++ hole "lambda" ++ "."
    arity := .threeAnglesThenQubit }

/-- All entries, in the byte order of their mnemonics. -/
def entries : List CatalogEntry :=
  [toffoli,
   controlledHadamard,
   controlledRotation "crx" "X",
   controlledRotation "cry" "Y",
   controlledRotation "crz" "Z",
   fredkin,
   controlledNot,
   controlledY,
   controlledZ,
   { mnemonic := "h",display := "Hadamard"
     template := "Hadamard transforms " ++ hole "qubit" ++
       " from a definite state (like |0⟩ or |1⟩) into a superposition of both." },
   { mnemonic := "id",display := "Identity"
     template := "Identity gate leaves " ++ hole "qubit" ++
       " unchanged, which is useful as a placeholder." },
   { mnemonic := "measure",display := "Measurement"
     template := "Measurement collapses " ++ hole "qubit" ++
       " into classical 0 or 1 based on probability." },
   { mnemonic := "p",display := "Phase"
     template := "Phase gate adds a phase of " ++ hole "theta" ++ " to " ++ hole "qubit" ++
       "'s |1⟩ state."
     arity := .angleThenQubit },
   rotation "rx" "X",
   rotation "ry" "Y",
   rotation "rz" "Z",
   { mnemonic := "s",display := "S"
     template := "S gate adds a 90° (π/2) phase to " ++ hole "qubit" ++ "'s |1⟩ state." },
   { mnemonic := "sdg",display := "S†"
     template := "S† (S-dagger) removes a 90° (π/2) phase from " ++ hole "qubit" ++
       "'s |1⟩ state." },
   swap,
   { mnemonic := "sx",display := "SX"
     template := "SX applies the square root of Pauli-X to " ++ hole "qubit" ++
       ", half of a bit flip." },
   { mnemonic := "t",display := "T"
     template := "T gate adds a 45° (π/4) phase to " ++ hole "qubit" ++ "'s |1⟩ state." },
   { mnemonic := "tdg",display := "T†"
     template := "T† (T-dagger) removes a 45° (π/4) phase from " ++ hole "qubit" ++
       "'s |1⟩ state." },
   universal "u" "U",
   { mnemonic := "u1",display := "U1"
     template := "U1 applies a pure Z rotation (a phase shift) of " ++ hole "theta" ++ " to " ++
       hole "qubit" ++ "."
     arity := .anglesThenQubit },
   { mnemonic := "u2",display := "U2"
     template := "U2 is a π/2 rotation around the Bloch sphere for " ++ hole "qubit" ++
       ", with φ = " ++ hole "theta" ++ " and λ = " ++ hole "phi" ++ "."
     arity := .anglesThenQubit },
   universal "u3" "U3",
   { mnemonic := "x",display := "Pauli-X"
     template := "Pauli-X flips the state of " ++ hole "qubit" ++
       ", like a quantum NOT gate: |0⟩ becomes |1⟩ and vice versa." },
   { mnemonic := "y",display := "Pauli-Y"
     template := "Pauli-Y flips " ++ hole "qubit" ++
       " and also adds a phase of i to the |1⟩ component." },
   { mnemonic := "z",display := "Pauli-Z"
     template := "Pauli-Z flips the phase of " ++ hole "qubit" ++
       "'s |1⟩ component, changing it to -|1⟩." }]

/-- The entry of a mnemonic, which must agree byte for byte. -/
def find? (mnemonic : Text) : Option CatalogEntry := entries.find? (·.mnemonic == mnemonic)

end Catalog
end CircuitNotes
