import CircuitNotes.Command.Line
import CircuitNotes.Command.Project
import CircuitNotes.Scan.Basic

/-! Explaining every source below a folder. -/
namespace CircuitNotes
namespace Project

def selection (p : Project) : Selection :=
  Selection.ofPatterns p.config.scan.includes p.config.scan.excludes

def scanJob (p : Project) (sel : Selection) (t : FileTree) (path : String) (force : Bool) : ScanJob :=
  { tree := t
    root := path
    selection := sel
    rule := p.rule
    force := force
    now := p.now }

/-- What a scan comes to, and the history that it leaves if it was given one. -/
def scanned (job : ScanJob) (c : Option Connection) :
    Except ScanError ScanReport × Option Connection × Explainer :=
  let explainer : Explainer := ⟨Recency.empty 0,0⟩
  match c with
  | some c =>
    let (outcome,state) := job.run Connection.access ⟨c,explainer⟩
    (outcome,some state.history,state.explainer)
  | none =>
    let (outcome,state) := job.run Ledger.access ⟨{},explainer⟩
    (outcome,none,state.explainer)

def keepScan (p : Project) : Except ScanError ScanReport × Option Connection × Explainer →
    Work CommandError (ScanReport × Explainer)
  | (.error e,_) => throw (.unscanned e)
  | (.ok report,kept,explainer) => do
    kept.forM p.keepHistory
    report.files.forM fun s => p.log .debug ("explained " ++ s.file.rel)
    return (report,explainer)

/-- Scans with a history that outlives the scan only if the settings want it. -/
def runScan (p : Project) (sel : Selection) (path : String) (force : Bool) (c : Option Connection) :
    Work CommandError (ScanReport × Explainer) := do
  p.keepScan (scanned (p.scanJob sel (← Work.files) path force) c)

/-- Writes the documents of files, except for those that have not changed and have one. The answer is
how many were written, and what went wrong. -/
def writeDocuments (p : Project) (folder : String) : List ScannedFile → Work CommandError (Nat × List Text)
  | [] => pure (0,[])
  | s :: rest => do
    match s.record? with
    | none => p.writeDocuments folder rest
    | some r =>
      let path := documentPath folder s.file.rel
      if s.isSkipped && ((← Work.files).stat path).isOk then p.writeDocuments folder rest
      else
        match ← (p.writeDocument path r.document id).attempt with
        | .ok _ =>
          let (written,errors) ← p.writeDocuments folder rest
          return (written + 1,errors)
        | .error e =>
          let (written,errors) ← p.writeDocuments folder rest
          return (written,("failed to write " ++ path ++ ": " ++ e.message) :: errors)

def scanSummary (p : Project) (r : ScanReport) (written : Nat) (e : Explainer) : Text :=
  let duplicates : Text := if e.cache.hits = 0 then []
    else "  Duplicate sources: " ++ Text.ofNat e.cache.hits ++ "\n"
  p.palette.word .heading "Scan complete:" ++ "\n" ++
    "  Files explained:   " ++ Text.ofNat r.explainedCount ++ "\n" ++
    "  Files skipped:     " ++ Text.ofNat r.skippedCount ++ " (unchanged)\n" ++
    "  Records deleted:   " ++ Text.ofNat r.deletedCount ++ " (removed)\n" ++
    "  Gates found:       " ++ Text.ofNat r.gatesFound ++ "\n" ++
    "  Documents written: " ++ Text.ofNat written ++ "\n" ++ duplicates

/-- The history that a scan works with; none if the settings do not want one kept. -/
def scanHistory (p : Project) : Work CommandError (Option Connection) :=
  if p.config.history.enabled then do
    p.makeDataFolder .noDataFolder
    let c ← (p.openHistory).because .unopenedStore
    return some c
  else pure none

def scanFolder (p : Project) (sel : Selection) (argument : Option String) (o : ScanOptions) :
    Work CommandError (ScanReport × Explainer) := do
  let path := (argument.map p.resolve).getD p.root
  let node ← Work.ask (·.stat path) .noPath
  if !node.isFolder then throw (.notFolder path)
  let c ← p.scanHistory
  p.log .info ("Scanning " ++ path ++ "...")
  p.runScan sel path o.force c

def documentsFolder (p : Project) (o : ScanOptions) : String :=
  p.resolve (if o.docsFolder.isEmpty then p.config.output.docsFolder else o.docsFolder)

def tellScan (p : Project) (folder : String) (r : ScanReport) (written : Nat) (unwritten : List Text)
    (e : Explainer) : Work CommandError Unit := do
  Work.print (p.scanSummary r written e)
  p.log .debug ("result cache: " ++ Text.ofNat e.cache.size ++ " distinct sources, " ++
    Text.ofNat e.cache.hits ++ " hits")
  let errors := r.errors ++ unwritten
  if !errors.isEmpty then
    Work.print "\n"
    errors.forM (p.log .warn)
  Work.print ("\nDocuments stored at: " ++ folder ++ "\n")

def finishScan (p : Project) (o : ScanOptions) (told : ScanReport × Explainer) :
    Work CommandError Unit := do
  let folder := p.documentsFolder o
  let (written,unwritten) ← p.writeDocuments folder told.1.files
  p.tellScan folder told.1 written unwritten told.2

def scan (p : Project) (argument : Option String) (o : ScanOptions) : Work CommandError Unit := do
  p.finishScan o (← p.scanFolder p.selection argument o)

end Project
end CircuitNotes
