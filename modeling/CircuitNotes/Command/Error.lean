import CircuitNotes.Command.Flag
import CircuitNotes.Config.Load
import CircuitNotes.Scan.Report

/-! Why a command fails. -/
namespace CircuitNotes

inductive CommandError
  | usage (e : UsageError)
  | config (e : ConfigError)
  | noSource (e : FileError)
  | sourceIsFolder (argument : String)
  | unreadSource (argument : String) (e : FileError)
  | unwrittenDocument (e : FileError)
  | unreadDocument (e : FileError)
  /-- The document differs from what the source explains to. -/
  | stale (path : String)
  | unsupportedFormat (format : String)
  | noPath (e : FileError)
  | notFolder (path : String)
  | noDataFolder (e : FileError)
  | unopenedStore (e : HistoryError)
  | unscanned (e : ScanError)
  /-- The project has no history yet. -/
  | noHistory
  | unopenedHistory (e : HistoryError)
  | noRecord (argument : String)
  | history (e : HistoryError)
  deriving DecidableEq, Repr

def CommandError.message : CommandError → Text
  | usage e => e.message
  | config e => "failed to load config: " ++ e.message
  | noSource e => "file not found: " ++ e.message
  | sourceIsFolder argument => argument ++ " is a directory, use 'circuitdoc scan'"
  | unreadSource argument e => "failed to read " ++ argument ++ ": " ++ e.message
  | unwrittenDocument e => "failed to write document: " ++ e.message
  | unreadDocument e => "failed to read document: " ++ e.message
  | stale path => path ++ ": document is out of date"
  | unsupportedFormat format => "unsupported format: " ++ format
  | noPath e => "path does not exist: " ++ e.message
  | notFolder path => "path is not a directory: " ++ path
  | noDataFolder e => "failed to create .circuitdoc directory: " ++ e.message
  | unopenedStore e => "failed to open history store: " ++ e.message
  | unscanned e => "scan failed: " ++ e.message
  | noHistory => "no history found. Run 'circuitdoc scan' first"
  | unopenedHistory e => "failed to open history: " ++ e.message
  | noRecord argument =>
    "no history for " ++ argument ++ ", run 'circuitdoc explain' or 'circuitdoc scan' first"
  | history e => e.message

end CircuitNotes
