import CircuitNotes.History.Bucket
import CircuitNotes.History.Error
import CircuitNotes.History.Record

/-! A history that is kept in memory for one run. -/
namespace CircuitNotes

structure Ledger where
  records : Bucket Record := []

namespace Ledger

def put (l : Ledger) (r : Record) : Ledger := ⟨Bucket.insert r.path r l.records⟩

def putAll (l : Ledger) (rs : List Record) : Ledger := rs.foldl put l

def get (l : Ledger) (path : Text) : Except HistoryError Record :=
  match Bucket.find? l.records path with
  | some r => .ok r
  | none => .error (.notFound path)

def delete (l : Ledger) (path : Text) : Ledger := ⟨Bucket.erase path l.records⟩

def list (l : Ledger) : List Record := l.records.map Prod.snd

end Ledger
end CircuitNotes
