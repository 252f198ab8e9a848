import CircuitNotes.History.Connection
import CircuitNotes.History.Ledger

/-! What a scan needs of a history, whichever way it is kept. -/
namespace CircuitNotes

/-- The operations on a history of type `σ`. One that fails leaves the history as it was. -/
structure HistoryAccess (σ : Type) where
  list : σ → Except HistoryError (List Record)
  putAll : σ → List Record → Except HistoryError σ
  delete : σ → Text → Except HistoryError σ

def Ledger.access : HistoryAccess Ledger where
  list := fun l => .ok l.list
  putAll := fun l rs => .ok (l.putAll rs)
  delete := fun l path => .ok (l.delete path)

def Connection.access : HistoryAccess Connection where
  list := fun c => c.ask Database.list
  putAll := fun c rs => c.update (·.putAll rs)
  delete := fun c path => c.update fun db => .ok (db.delete path)

/-- A history that declines some of the operations `list`, `put` and `delete`. -/
def HistoryAccess.refusing {σ : Type} (h : HistoryAccess σ) (operations : List String) :
    HistoryAccess σ where
  list := fun s => if "list" ∈ operations then .error (.refused "list") else h.list s
  putAll := fun s rs => if "put" ∈ operations then .error (.refused "put") else h.putAll s rs
  delete := fun s path =>
    if "delete" ∈ operations then .error (.refused "delete") else h.delete s path

end CircuitNotes
