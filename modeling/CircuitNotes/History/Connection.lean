import CircuitNotes.History.Schema

/-! A database in use. It can be closed and opened again, counts its transactions and keeps the
states that they have led to. -/
namespace CircuitNotes

structure Connection where
  database : Database := {}
  revision : Nat := 0
  isOpen : Bool := true
  /-- The states after the transactions since the database was taken into use, the latest first. -/
  journal : List Database := []
  deriving DecidableEq, Repr

namespace Connection

def close (c : Connection) : Connection := { c with isOpen := false }

def commit (c : Connection) (database : Database) : Connection :=
  { c with database := database,revision := c.revision + 1,journal := database :: c.journal }

/-- Opening makes sure, in a transaction, that the buckets are there. -/
def reopen (c : Connection) : Connection := { c.commit c.database with isOpen := true }

def ask {α : Type} (c : Connection) (question : Database → Except HistoryError α) :
    Except HistoryError α :=
  if c.isOpen then question c.database else .error .closed

/-- The connection after a transaction, which changes nothing when it fails. -/
def update (c : Connection) (change : Database → Except HistoryError Database) :
    Except HistoryError Connection := do
  return c.commit (← c.ask change)

def plan (c : Connection) (constructor : String) : Except HistoryError MigrationPlan :=
  match c.ask Database.schema with
  | .ok s => .ok (MigrationPlan.ofSchema s constructor)
  | .error e => .error (.schemaUnavailable e)

/-- Brings the database to the current schema. The answer is why its records were dropped, or the
empty text when they were not. -/
def prepare (c : Connection) (constructor : String) : Except HistoryError (String × Connection) := do
  let plan ← c.plan constructor
  return (if plan.needsRebuild then plan.reason else "",
    (plan.transactions constructor).foldl (fun c change => c.commit (change c.database)) c)

end Connection
end CircuitNotes
