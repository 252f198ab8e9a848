import CircuitNotes.Files.Walk
import CircuitNotes.History.Error
import CircuitNotes.History.Record

/-! What a scan of a folder has to tell. -/
namespace CircuitNotes

inductive ReadError
  | failed (e : FileError)
  | refused (f : FileFault)
  deriving DecidableEq, Repr

def ReadError.message : ReadError → String
  | failed e => e.message
  | refused f => f.message

/-- What became of a file: it was explained, or its record was still right, or it could not be
read. -/
inductive FileOutcome
  | explained (r : Record)
  | skipped (r : Record)
  | unread (e : ReadError)
  deriving DecidableEq, Repr

structure ScannedFile where
  file : FoundFile
  outcome : FileOutcome
  deriving DecidableEq, Repr

namespace ScannedFile

def record? (s : ScannedFile) : Option Record :=
  match s.outcome with
  | .explained r => some r
  | .skipped r => some r
  | .unread _ => none

def explained? (s : ScannedFile) : Option Record :=
  match s.outcome with
  | .explained r => some r
  | _ => none

def isSkipped (s : ScannedFile) : Bool :=
  match s.outcome with
  | .skipped _ => true
  | _ => false

def failure? (s : ScannedFile) : Option String :=
  match s.outcome with
  | .unread e => some ("failed to read file: " ++ e.message)
  | _ => none

end ScannedFile

/-- The files of a scan in the order of the walk, the records that were deleted because their files
are gone, and those that could not be deleted. -/
structure ScanReport where
  files : List ScannedFile
  deleted : List Text := []
  undeleted : List (Text × HistoryError) := []

namespace ScanReport

def explainedCount (r : ScanReport) : Nat := (r.files.filterMap ScannedFile.explained?).length

def skippedCount (r : ScanReport) : Nat := (r.files.filter ScannedFile.isSkipped).length

def deletedCount (r : ScanReport) : Nat := r.deleted.length

def gatesFound (r : ScanReport) : Nat :=
  (r.files.filterMap ScannedFile.record?).foldl (fun total rec => total + rec.circuit.gateCount) 0

def fileErrors (r : ScanReport) : List Text :=
  r.files.filterMap fun s => s.failure?.map fun f => Text.ofString (s.file.rel ++ ": " ++ f)

def recordErrors (r : ScanReport) : List Text :=
  r.undeleted.map fun (path,e) => "failed to delete " ++ path ++ ": " ++ e.message

/-- What went wrong: first for files, in their order, then for records. -/
def errors (r : ScanReport) : List Text := r.fileErrors ++ r.recordErrors

end ScanReport

inductive ScanError
  | unwalked (e : FileError)
  | unlisted (e : HistoryError)
  | cancelled
  | unstored (e : HistoryError)
  deriving DecidableEq, Repr

def ScanError.message : ScanError → Text
  | unwalked e => "failed to walk directory: " ++ e.message
  | unlisted e => "failed to list history: " ++ e.message
  | cancelled => "context canceled"
  | unstored e => "failed to store history: " ++ e.message

end CircuitNotes
