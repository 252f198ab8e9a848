import CircuitNotes.Config.Save
import CircuitNotes.Main
import CircuitNotes.Proofs.CommentLines
import CircuitNotes.Proofs.ConstructorFingerprints
import CircuitNotes.Proofs.DatabaseSessions
import CircuitNotes.Proofs.DefaultSelection
import CircuitNotes.Proofs.DocumentChecking
import CircuitNotes.Proofs.DocumentFreshness
import CircuitNotes.Proofs.DocumentPaths
import CircuitNotes.Proofs.DocumentReading
import CircuitNotes.Proofs.ExplainedOnce
import CircuitNotes.Proofs.FailedExplaining
import CircuitNotes.Proofs.FileKeys
import CircuitNotes.Proofs.FolderSearch
import CircuitNotes.Proofs.InterchangeableHistories
import CircuitNotes.Proofs.LineGrammar
import CircuitNotes.Proofs.QubitIndices
import CircuitNotes.Proofs.QubitNumerals
import CircuitNotes.Proofs.RecentUse
import CircuitNotes.Proofs.RecordPruning
import CircuitNotes.Proofs.SavedSettings
import CircuitNotes.Proofs.ScanCalledOff
import CircuitNotes.Proofs.ScanFailure
import CircuitNotes.Proofs.ScanScheduling
import CircuitNotes.Proofs.ScanShortcuts
import CircuitNotes.Proofs.StoredForm
import CircuitNotes.Proofs.TemplateFilling
