import CircuitNotes.Gate.Argument

/-! The roles of a gate's arguments. An arity says which arguments are parameters, which are qubits
and which are left out. -/
namespace CircuitNotes

inductive Arity
  | qubits
  | angleThenQubit
  | angleThenQubits
  | threeAnglesThenQubit
  | anglesThenQubit
  | other
  deriving DecidableEq, Repr

namespace Arity

def name : Arity → String
  | qubits => "qubits"
  | angleThenQubit => "angle+qubit"
  | angleThenQubits => "angle+qubits"
  | threeAnglesThenQubit => "3-angle+qubit"
  | anglesThenQubit => "n-angle+qubit"
  | other => "unknown"

/-- Arities are numbered from zero; every other number is an unknown arity. -/
def ofCode (i : Int) : Arity :=
  if i = 0 then qubits
  else if i = 1 then angleThenQubit
  else if i = 2 then angleThenQubits
  else if i = 3 then threeAnglesThenQubit
  else if i = 4 then anglesThenQubit
  else other

def code : Arity → Int
  | qubits => 0
  | angleThenQubit => 1
  | angleThenQubits => 2
  | threeAnglesThenQubit => 3
  | anglesThenQubit => 4
  | other => 5

def paramCount : Arity → Nat → Nat
  | angleThenQubit, n | angleThenQubits, n => min n 1
  | threeAnglesThenQubit, n => min n 3
  | anglesThenQubit, n => n - 1
  | qubits, _ | other, _ => 0

def keptCount : Arity → Nat → Nat
  | angleThenQubit, n => min n 2
  | threeAnglesThenQubit, n => min n 4
  | _, n => n

end Arity

/-- A qubit position of a call; without an index it is unresolved. -/
structure Slot where
  text : Text
  index : Option Int
  deriving DecidableEq, Repr

structure Operands where
  slots : List Slot := []
  params : List Text := []
  deriving DecidableEq, Repr

namespace Slot

def ofArgument (a : Argument) : Slot := ⟨a.text,a.qubit?.map Int.ofNat⟩

def label (s : Slot) : Text :=
  match s.index with
  | some i => Text.ofInt i
  | none => "?"

end Slot

namespace Operands

def qubits (o : Operands) : List Int := o.slots.filterMap Slot.index

/-- The texts of the unresolved slots, without the empty ones. -/
def unresolved (o : Operands) : List Text :=
  (o.slots.filter fun s => s.index.isNone && !s.text.isEmpty).map Slot.text

def classify (arity : Arity) (args : List Argument) : Operands :=
  let params := arity.paramCount args.length
  { params := (args.take params).map Argument.text
    slots := ((args.take (arity.keptCount args.length)).drop params).map Slot.ofArgument }

end Operands
end CircuitNotes
