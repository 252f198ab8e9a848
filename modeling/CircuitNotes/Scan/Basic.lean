import CircuitNotes.Cache.Explainer
import CircuitNotes.History.Access
import CircuitNotes.Scan.Report

/-! Scanning a folder: every selected file is explained, unless its record shows that it has not
changed, and the records of files that are gone are deleted. -/
namespace CircuitNotes

/-- Puts the paths of every list into some order. -/
structure Arrangement where
  arrange : List Text → List Text
  perm : ∀ paths, (arrange paths).Perm paths

instance : Inhabited Arrangement := ⟨id,.refl⟩

structure ScanJob where
  tree : FileTree
  /-- The folder to scan. -/
  root : String
  selection : Selection
  /-- Files that must not be read. -/
  denied : List String := []
  rule : Text → Explanation
  /-- Explain files whether or not they have changed. -/
  force : Bool := false
  now : Instant
  /-- The number of files after which the scan is called off. -/
  cancelAfter : Option Nat := none
  /-- The order in which the records of files that are gone come up. -/
  order : Arrangement := default

/-- A way of explaining sources, which may change with every source that it explains. -/
abbrev Explaining (ε : Type) := ε → Text → Explanation × ε

structure ScanState (σ : Type) (ε : Type := Explainer) where
  history : σ
  explainer : ε

namespace ScanJob

variable {σ ε : Type}

def read (job : ScanJob) (path : String) : Except ReadError Text :=
  if path ∈ job.denied then .error (.refused .denied)
  else match job.tree.read path with
    | .ok content => .ok content
    | .error e => .error (.failed e)

def recordOf (job : ScanJob) (file : FoundFile) (hash : Text) (e : Explanation) : Record :=
  { path := file.path
    hash := hash
    modified := file.modified
    circuit := e.circuit
    document := e.document
    explainedAt := job.now }

def keeps (job : ScanJob) (hash : Text) (r : Record) : Bool := !job.force && r.hash == hash

def scanFile (job : ScanJob) (explain : Explaining ε) (existing : Bucket Record) (explainer : ε)
    (file : FoundFile) : ScannedFile × ε :=
  match job.read file.path with
  | .error e => (⟨file,.unread e⟩,explainer)
  | .ok source =>
    let hash := contentHash source
    match (Bucket.find? existing file.path).filter (job.keeps hash) with
    | some r => (⟨file,.skipped r⟩,explainer)
    | none =>
      let (explanation,explainer) := explain explainer source
      (⟨file,.explained (job.recordOf file hash explanation)⟩,explainer)

def scanFiles (job : ScanJob) (explain : Explaining ε) (existing : Bucket Record) (explainer : ε) :
    List FoundFile → List ScannedFile × ε
  | [] => ([],explainer)
  | file :: rest =>
    let (scanned,explainer) := job.scanFile explain existing explainer file
    let (more,explainer) := job.scanFiles explain existing explainer rest
    (scanned :: more,explainer)

def folder (job : ScanJob) : String := job.tree.absolute job.root

/-- The paths with a record below the folder scanned at which no file was found, as they come up. -/
def stale (job : ScanJob) (existing : Bucket Record) (files : List FoundFile) : List Text :=
  job.order.arrange <| (existing.map Prod.fst).filter fun path =>
    (Text.ofString (job.folder ++ "/")).isPrefixOf path &&
      !(files.map fun f => Text.ofString f.path).contains path

/-- The history without the records of some paths; the paths of the records deleted, and the
failures. -/
def prune (access : HistoryAccess σ) (history : σ) :
    List Text → σ × List Text × List (Text × HistoryError)
  | [] => (history,[],[])
  | path :: rest =>
    match access.delete history path with
    | .ok history =>
      let (history,deleted,failed) := prune access history rest
      (history,path :: deleted,failed)
    | .error e =>
      let (history,deleted,failed) := prune access history rest
      (history,deleted,(path,e) :: failed)

def settle (job : ScanJob) (access : HistoryAccess σ) (history : σ)
    (existing : Bucket Record) (files : List FoundFile) (scanned : List ScannedFile) :
    Except ScanError (ScanReport × σ) :=
  let fresh := scanned.filterMap ScannedFile.explained?
  match if fresh.isEmpty then .ok history else access.putAll history fresh with
  | .error e => .error (.unstored e)
  | .ok history =>
    let (history,deleted,undeleted) := prune access history (job.stale existing files)
    .ok (⟨scanned,deleted,undeleted⟩,history)

/-- The records of a history by their paths; of one path the last record counts. -/
def byPath (records : List Record) : Bucket Record :=
  records.foldl (fun b r => Bucket.insert r.path r b) []

/-- The files that are scanned before the scan is called off. -/
def reached (job : ScanJob) (files : List FoundFile) : List FoundFile :=
  match job.cancelAfter with
  | none => files
  | some n => files.take n

/-- Scans a folder and explains its files in a given way. A scan that fails leaves the history as it
was. -/
def runWith (job : ScanJob) (explain : Explaining ε) (access : HistoryAccess σ)
    (state : ScanState σ ε) : Except ScanError ScanReport × ScanState σ ε :=
  match job.tree.walk job.selection job.root with
  | .error e => (.error (.unwalked e),state)
  | .ok files =>
    match access.list state.history with
    | .error e => (.error (.unlisted e),state)
    | .ok records =>
      let existing := byPath records
      let reached := job.reached files
      let (scanned,explainer) := job.scanFiles explain existing state.explainer reached
      if reached.length < files.length then (.error .cancelled,{ state with explainer := explainer })
      else match job.settle access state.history existing files scanned with
        | .error e => (.error e,{ state with explainer := explainer })
        | .ok (report,history) => (.ok report,⟨history,explainer⟩)

def run (job : ScanJob) (access : HistoryAccess σ) (state : ScanState σ) :
    Except ScanError ScanReport × ScanState σ :=
  job.runWith (fun explainer source => explainer.explain job.rule source) access state

end ScanJob
end CircuitNotes
