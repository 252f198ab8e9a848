import CircuitNotes.Command.Line
import CircuitNotes.Command.Project
import CircuitNotes.Diff.Unified

/-! Explaining one source. -/
namespace CircuitNotes
namespace Project

inductive RecordingError
  | noFolder (e : FileError)
  | history (e : HistoryError)
  deriving DecidableEq, Repr

def RecordingError.message : RecordingError → Text
  | noFolder e => e.message
  | history e => e.message

def recordSource (p : Project) (r : Record) : Work RecordingError Unit := do
  p.makeDataFolder .noFolder
  let c ← (p.openHistory).because .history
  match c.update (·.put r) with
  | .ok c => p.keepHistory c
  | .error e => throw (.history e)

def checkContext : Nat := 2

/-- What a document holds. A missing document counts as empty. -/
def heldDocument (path : String) : Work CommandError Text := do
  match (← Work.files).read path with
  | .ok content => return content
  | .error e => if e.fault = .notFound then return [] else throw (.unreadDocument e)

def checkDocument (p : Project) (path : String) (d : Document) : Work CommandError Unit := do
  let held ← heldDocument path
  if held == d.markdown then
    Work.print (p.palette.lines .ok (path ++ " is up to date\n"))
  else
    Work.print (Diff.unified checkContext path (path ++ " (generated)") held d.markdown)
    throw (.stale path)

/-- The source at a path with the time of its last change; `argument` is how it was named. -/
def readSource (path argument : String) : Work CommandError (Text × Int) := do
  let node ← Work.ask (·.stat path) .noSource
  if node.isFolder then throw (.sourceIsFolder argument)
  let source ← Work.ask (·.read path) (.unreadSource argument)
  return (source,node.modified)

def explainedIn (p : Project) (o : ExplainOptions) : String :=
  p.resolve (if o.output.isEmpty then p.config.output.document else o.output)

def noteExplanation {ε : Type} (p : Project) (argument : String) (e : Explanation) : Work ε Unit := do
  if e.circuit.name.isEmpty then
    p.log .warn ("no " ++ p.config.scan.constructor ++ "(...) declaration found in " ++ argument)
  p.log .debug (argument ++ ": circuit=" ++ e.circuit.name.quote ++ " qubits=" ++
    Text.ofInt e.circuit.qubits ++ " gates=" ++ Text.ofNat e.circuit.gateCount)

def recordOf (p : Project) (path : String) (source : Text) (modified : Int) (e : Explanation) : Record :=
  { path := path
    hash := contentHash source
    modified := modified
    circuit := e.circuit
    document := e.document
    explainedAt := p.now }

/-- Puts a record into the history if that can be done, and logs why if it cannot. -/
def rememberSource {ε : Type} (p : Project) (r : Record) : Work ε Unit := do
  match ← (p.recordSource r).attempt with
  | .ok _ => pure ()
  | .error why => p.log .warn ("history not updated: " ++ why.message)

def printExplanation (p : Project) (o : ExplainOptions) (e : Explanation) : Work CommandError Unit := do
  p.printResult (if o.format.isEmpty then p.config.output.format else o.format) e.circuit
  if o.printDocument then Work.print e.document.markdown

/-- Explains a source: writes its document, keeps the explanation in the history and prints the
result; or only checks the document. -/
def explain (p : Project) (argument : String) (o : ExplainOptions) : Work CommandError Unit := do
  let path := p.resolve argument
  let (source,modified) ← readSource path argument
  let e := p.rule source
  p.noteExplanation argument e
  if o.check then p.checkDocument (p.explainedIn o) e.document
  else
    p.writeDocument (p.explainedIn o) e.document .unwrittenDocument
    p.log .info ("Document written to: " ++ p.explainedIn o)
    if p.config.history.enabled && !o.noHistory then
      p.rememberSource (p.recordOf path source modified e)
    p.printExplanation o e

end Project
end CircuitNotes
