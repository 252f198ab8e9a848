import CircuitNotes.Circuit.Listing
import CircuitNotes.Command.Error
import CircuitNotes.Command.Log
import CircuitNotes.History.Storage

/-! A project and what commands do in it: they change files, print, log, and may fail, in which case
what they have done before stays done. -/
namespace CircuitNotes

structure Project where
  /-- The folder of the project, by a clean absolute path. -/
  root : String
  config : Config
  palette : Palette
  now : Instant
  deriving DecidableEq, Repr

structure World where
  tree : FileTree
  stdout : Text := []
  log : Text := []
  /-- The states that the transactions on the history have led to, the latest first. -/
  journal : List Database := []
  deriving DecidableEq, Repr

abbrev Work (ε α : Type) := ExceptT ε (StateM World) α

namespace Work

def files {ε : Type} : Work ε FileTree := do return (← get).tree

def ask {ε α : Type} (question : FileTree → Except FileError α) (because : FileError → ε) : Work ε α := do
  match question (← get).tree with
  | .ok a => return a
  | .error e => throw (because e)

def change {ε : Type} (f : FileTree → Except FileError FileTree) (because : FileError → ε) :
    Work ε Unit := do
  match f (← get).tree with
  | .ok t => modify fun w => { w with tree := t }
  | .error e => throw (because e)

def print {ε : Type} (t : Text) : Work ε Unit :=
  modify fun w => { w with stdout := w.stdout ++ t }

/-- Work whose failure is an answer. -/
def attempt {ε ε' α : Type} (x : Work ε α) : Work ε' (Except ε α) := ExceptT.lift x.run

def because {ε ε' α : Type} (x : Work ε α) (f : ε → ε') : Work ε' α := ExceptT.adapt f x

end Work

namespace Project

def resolve (p : Project) (path : String) : String :=
  if Path.isAbsolute path then path else Path.join [p.root,path]

def log {ε : Type} (p : Project) (level : LogLevel) (message : Text) : Work ε Unit :=
  if level.isShown (LogLevel.ofSetting p.config.logging.level) then
    modify fun w => { w with log := w.log ++ level.line p.palette message }
  else pure ()

def rule (p : Project) : Text → Explanation := explainSource p.config.scan.constructor

def writeDocument {ε : Type} (p : Project) (path : String) (d : Document) (because : FileError → ε) :
    Work ε Unit := do
  Work.change (·.makeFolders (Path.directory path)) because
  Work.change (·.write p.now.seconds path d.markdown) because

def makeDataFolder {ε : Type} (p : Project) (because : FileError → ε) : Work ε Unit :=
  Work.change (·.makeFolders (dataFolder p.root)) because

/-- Whether the file of the history is certainly not there. -/
def lacksHistory (p : Project) (t : FileTree) : Bool :=
  match t.stat (historyPath p.root) with
  | .ok _ => false
  | .error e => e.fault = .notFound

def keepHistory {ε : Type} (p : Project) (c : Connection) : Work ε Unit :=
  modify fun w => match w.tree.store p.now.seconds (historyPath p.root) c with
    | .ok t => { w with tree := t,journal := c.journal }
    | .error _ => { w with journal := c.journal }

def openHistory (p : Project) : Work HistoryError Connection := do
  match (← Work.files).connect p.now.seconds (historyPath p.root) with
  | .error e => throw e
  | .ok (c,t) =>
    modify fun w => { w with tree := t,journal := c.journal }
    match c.prepare p.config.scan.constructor with
    | .error e => throw e
    | .ok (reason,c) =>
      p.keepHistory c
      if reason != "" then p.log .info ("History cleared: " ++ reason)
      return c

def printResult (p : Project) (format : String) (c : Circuit) : Work CommandError Unit :=
  match format with
  | "json" => Work.print (c.toJson.pretty 0 ++ "\n")
  | "text" => Work.print (p.palette.lines .heading c.title ++ c.gateLines)
  | _ => throw (.unsupportedFormat format)

end Project
end CircuitNotes
