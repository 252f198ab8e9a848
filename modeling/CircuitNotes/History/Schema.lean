import CircuitNotes.History.Database
import CircuitNotes.History.Fingerprint

/-! The settings of a database: the version of the form its records have, and the fingerprint of
the configuration they were made with. Records made with another configuration or by a later version
are of no use and are dropped. -/
namespace CircuitNotes

structure Schema where
  version : Int := 0
  fingerprint : Text := []
  deriving DecidableEq, Repr

namespace Schema

def current : Int := 1

def versionKey : Text := "schema_version"
def fingerprintKey : Text := "config_hash"

def ofConstructor (constructor : String) : Schema := ⟨current,CircuitNotes.fingerprint constructor⟩

/-- The schema that settings describe; what is missing counts as version 0 or as no fingerprint. -/
def ofSettings (settings : Bucket Text) : Except HistoryError Schema := do
  let version ← match Bucket.find? settings versionKey with
    | none => pure 0
    | some text => match Integer.readDecimal text with
      | .ok n => pure n
      | .error fault => throw (.badVersion text fault)
  return ⟨version,(Bucket.find? settings fingerprintKey).getD []⟩

end Schema

/-- Whether the records can stay (`needsRebuild` is false) and whether the settings must be
written. -/
structure MigrationPlan where
  needsMigration : Bool := false
  needsRebuild : Bool := false
  oldVersion : Int
  newVersion : Int := Schema.current
  reason : String := ""
  deriving DecidableEq, Repr

namespace MigrationPlan

def ofVersion (version : Int) : MigrationPlan :=
  let shown (i : Int) : String := "v" ++ (Text.ofInt i).toString
  if version = 0 then
    { oldVersion := version,needsMigration := true,reason := "initializing schema version" }
  else if version < Schema.current then
    { oldVersion := version,needsMigration := true
      reason := "schema upgrade from " ++ shown version ++ " to " ++ shown Schema.current }
  else if Schema.current < version then
    { oldVersion := version,needsRebuild := true
      reason := "database created by newer version (" ++ shown version ++ " > " ++
        shown Schema.current ++ ")" }
  else { oldVersion := version }

def ofSchema (s : Schema) (constructor : String) : MigrationPlan :=
  let plan := ofVersion s.version
  if s.version ≤ Schema.current ∧ s.fingerprint ≠ [] ∧ s.fingerprint ≠ fingerprint constructor then
    { plan with needsRebuild := true,reason := "scan configuration changed" }
  else plan

end MigrationPlan

namespace Database

def schema (db : Database) : Except HistoryError Schema := Schema.ofSettings db.settings

def setSchema (db : Database) (s : Schema) : Database :=
  let versioned := Bucket.insert Schema.versionKey (Text.ofInt s.version) db.settings
  { db with settings := Bucket.insert Schema.fingerprintKey s.fingerprint versioned }

def migrate (db : Database) (constructor : String) : Database :=
  db.setSchema (Schema.ofConstructor constructor)

end Database

def MigrationPlan.transactions (plan : MigrationPlan) (constructor : String) :
    List (Database → Database) :=
  (if plan.needsRebuild then [Database.clear] else []) ++
  (if plan.needsRebuild || plan.needsMigration then [(Database.migrate · constructor)] else [])

end CircuitNotes
