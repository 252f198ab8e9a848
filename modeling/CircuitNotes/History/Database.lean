import CircuitNotes.History.Bucket
import CircuitNotes.History.Error
import CircuitNotes.History.Packed

/-! The history as it is stored: a bucket of records, each in its stored form, and a bucket of
settings about the whole. Every change is a transaction, which happens as a whole or not at all. -/
namespace CircuitNotes

structure Database where
  records : Bucket Text := []
  settings : Bucket Text := []
  deriving DecidableEq, Repr

namespace Database

def keyLimit : Nat := 32768

def checkKey (key : Text) : Except HistoryError Unit :=
  if key.isEmpty then .error .keyRequired
  else if keyLimit < key.length then .error .keyTooLarge
  else .ok ()

/-- The database with bytes under a path, whatever they are. Their number is not bounded here, that of a
key is. -/
def putBytes (db : Database) (path bytes : Text) : Except HistoryError Database := do
  checkKey path
  return { db with records := Bucket.insert path bytes db.records }

def put (db : Database) (r : Record) : Except HistoryError Database :=
  db.putBytes r.path (Packed.record r)

/-- All of the records in one transaction. -/
def putAll (db : Database) (rs : List Record) : Except HistoryError Database := rs.foldlM put db

def decode (path bytes : Text) : Except HistoryError Record :=
  match Packed.read? bytes with
  | some (r,_) => .ok r
  | none => .error (.undecodable path)

def get (db : Database) (path : Text) : Except HistoryError Record :=
  match Bucket.find? db.records path with
  | some bytes => decode path bytes
  | none => .error (.notFound path)

def delete (db : Database) (path : Text) : Database :=
  { db with records := Bucket.erase path db.records }

def list (db : Database) : Except HistoryError (List Record) := do
  let rs ← db.records.mapM fun (path,bytes) => decode path bytes
  return rs.mergeSort fun a b => decide (a.path ≤ b.path)

def clear (db : Database) : Database := { db with records := [] }

def putSetting (db : Database) (key value : Text) : Except HistoryError Database := do
  checkKey key
  return { db with settings := Bucket.insert key value db.settings }

end Database

end CircuitNotes
