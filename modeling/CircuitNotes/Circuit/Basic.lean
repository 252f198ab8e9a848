import CircuitNotes.Text.Basic

/-! Circuits and their explanations. A list that a stored record may lack altogether is an `Option`,
because a missing list and an empty one are stored and shown differently. -/
namespace CircuitNotes

/-- One explained gate call: the gate's name, the qubits it acts on, its parameters and the qubit
arguments that are not qubit indices. -/
structure Gate where
  name : Text
  qubits : Option (List Int) := none
  params : List Text := []
  unresolved : List Text := []
  deriving DecidableEq, Repr, Inhabited

structure Circuit where
  name : Text := []
  qubits : Int := 0
  gates : Option (List Gate) := none
  deriving DecidableEq, Repr, Inhabited

structure Block where
  heading : Text
  explanation : Text
  deriving DecidableEq, Repr, Inhabited

structure Document where
  blocks : Option (List Block) := none
  deriving DecidableEq, Repr, Inhabited

structure Explanation where
  circuit : Circuit := {}
  document : Document := {}
  deriving DecidableEq, Repr, Inhabited

def Circuit.gateCount (c : Circuit) : Nat := (c.gates.getD []).length

def qubitList (qubits : List Int) : Text := Text.joinWith ", " (qubits.map Text.ofInt)

namespace Block

def markdown (b : Block) : Text := b.heading ++ [10] ++ b.explanation ++ [10,10]

end Block

def Document.markdown (d : Document) : Text := (d.blocks.getD []).flatMap Block.markdown

@[simp] theorem Document.markdown_none : Document.markdown ⟨none⟩ = [] := rfl

@[simp] theorem Document.markdown_nil : Document.markdown ⟨some []⟩ = [] := rfl

@[simp] theorem Document.markdown_cons (b : Block) (bs : List Block) :
    Document.markdown ⟨some (b :: bs)⟩ = b.markdown ++ Document.markdown ⟨some bs⟩ := by
  simp [Document.markdown]

end CircuitNotes
