import CircuitNotes.Circuit.Basic
import CircuitNotes.Gate.Catalog

/-! The explanation of one gate call. -/
namespace CircuitNotes

structure Call where
  line : Nat
  method : Text
  args : Text
  deriving DecidableEq, Repr

namespace CatalogEntry

def gate (e : CatalogEntry) (ops : Operands) : Gate :=
  { name := e.display,qubits := some ops.qubits,params := ops.params,
    unresolved := ops.unresolved }

def block (e : CatalogEntry) (ops : Operands) : Block :=
  ⟨heading e.display ops.slots,Template.fill e.template ops⟩

end CatalogEntry

/-- The gate and the block of a call; none when its method is not in the catalogue. -/
def Call.explain? (c : Call) : Option (Gate × Block) :=
  (Catalog.find? c.method).map fun e =>
    let ops := Operands.classify e.arity (Argument.split c.args)
    (e.gate ops,e.block ops)

end CircuitNotes
