import CircuitNotes.Files.Error
import CircuitNotes.Number.Integer
import CircuitNotes.Text.Quoted

/-! Why an operation on the history fails. -/
namespace CircuitNotes

inductive HistoryError
  /-- No record is kept for the path. -/
  | notFound (path : Text)
  /-- The database has been closed. -/
  | closed
  | keyRequired
  | keyTooLarge
  /-- The bytes kept for a path are no record. -/
  | undecodable (path : Text)
  | badVersion (version : Text) (fault : Integer.Fault)
  | schemaUnavailable (cause : HistoryError)
  /-- The file of the database cannot be used. -/
  | unopened (cause : FileError)
  /-- The file is not that of a database. -/
  | notDatabase
  /-- The history declines to do what the word says. -/
  | refused (operation : String)
  deriving DecidableEq, Repr

namespace HistoryError

def message : HistoryError → Text
  | notFound path => "record not found: " ++ path
  | closed => "database not open"
  | keyRequired => "key required"
  | keyTooLarge => "key too large"
  | undecodable path => "failed to decode record " ++ path
  | badVersion version fault =>
    "invalid schema version " ++ version.quote ++ ": strconv.Atoi: parsing " ++ version.quote ++ ": " ++
      fault.message
  | schemaUnavailable cause => "failed to get schema info: " ++ cause.message
  | unopened cause => "failed to open bolt db: " ++ cause.message
  | notDatabase => "failed to open bolt db: invalid database"
  | refused operation => operation ++ " refused"

def root : HistoryError → HistoryError
  | schemaUnavailable cause => cause.root
  | e => e

end HistoryError
end CircuitNotes
