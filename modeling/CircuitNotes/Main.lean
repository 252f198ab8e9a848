import CircuitNotes.Command.Sources
import Std.Time.DateTime.Timestamp

/-! The program. It takes the names of the project's files, and the contents of those that the command
line reads, runs the command line, and writes the files that have changed. -/
namespace CircuitNotes
namespace Program

def now : IO Instant := do
  let t ← Std.Time.Timestamp.now
  return ⟨t.val.second.val,t.val.nano.val.toNat⟩

def environment : IO Environment := do
  let names := ["CIRCUITDOC_CONSTRUCTOR","CIRCUITDOC_DOCUMENT","CIRCUITDOC_FORMAT",
    "CIRCUITDOC_JOBS","CIRCUITDOC_LOG_LEVEL"]
  let values ← names.filterMapM fun name => do
    return (← IO.getEnv name).map (name,·)
  return ⟨values⟩

/-- Colours are for terminals, and for those who want them. -/
def palette : IO Palette := do
  let wanted := ((← IO.getEnv "NO_COLOR").getD "").isEmpty && (← IO.getEnv "TERM") != some "dumb"
  return ⟨wanted && (← (← IO.getStdout).isTty)⟩

def contentAt (path : String) : IO Text := do
  return (← IO.FS.readBinFile path).toList

/-- What stands at a path, without content; none if there is nothing. -/
def nodeAt (path : String) : IO (Option FileNode) := do
  let file := (← IO.currentDir) / path
  match ← file.symlinkMetadata.toBaseIO with
  | .error _ => return none
  | .ok data =>
    match data.type with
    | .dir => return some .folder
    | .symlink =>
      let target ← if ← file.pathExists then pure (← IO.FS.realPath file).toString else pure ""
      return some (.link target data.modified.sec)
    | _ => return some (.file [] data.modified.sec)

partial def nodesBelow (place : List String) : IO (List (List String × FileNode)) := do
  let folder := (← IO.currentDir) / Path.ofPieces true place
  let mut nodes := []
  for entry in ← folder.readDir do
    let here := place ++ [entry.fileName]
    match ← nodeAt (Path.ofPieces true here) with
    | none => pure ()
    | some node =>
      nodes := (here,node) :: nodes
      if node.isFolder then nodes := (← nodesBelow here) ++ nodes
  return nodes

def withContent (t : FileTree) (path : String) : IO FileTree := do
  let path := Path.absolute (Path.ofPieces true t.workingFolder) path
  match ← nodeAt path with
  | some (.file _ modified) => return t.plant path (.file (← contentAt path) modified)
  | some (.link target modified) =>
    let t := t.plant path (.link target modified)
    match ← nodeAt target with
    | some (.file _ time) => return t.plant target (.file (← contentAt target) time)
    | some node => return t.plant target node
    | none => return t
  | some .folder => return if (t.stat path).isOk then t else t.plant path .folder
  | none => return t

def filesFor (args : List String) (s : Surroundings) : IO FileTree := do
  let here := (← IO.currentDir).toString
  let t : FileTree := { workingFolder := Path.cleanPieces here }
  match CommandLine.ofArguments args with
  | .error _ => return t
  | .ok l =>
    let root := l.projectRoot t
    let mut t := t.plant here .folder
    if let some .folder ← nodeAt root then
      t := t.plant root .folder
      t := { t with nodes := t.nodes ++ (← nodesBelow (Path.cleanPieces root)) }
    for path in l.settingsFiles root do
      t ← withContent t path
    for path in l.sources s t do
      t ← withContent t path
    return t

def writeChanges (changes : List (List String × FileNode)) : IO Unit := do
  for (place,node) in changes do
    let path := Path.ofPieces true place
    match node with
    | .folder => IO.FS.createDirAll path
    | .file content _ => IO.FS.writeBinFile path ⟨content.toArray⟩
    | .link _ _ => pure ()

def printText (stream : IO.FS.Stream) (t : Text) : IO Unit := do
  stream.write ⟨t.toArray⟩
  stream.flush

end Program
end CircuitNotes

open CircuitNotes in
def main (args : List String) : IO UInt32 := do
  let s : Surroundings := ⟨← Program.environment,← Program.palette,← Program.now⟩
  let t ← Program.filesFor args s
  let outcome := run s t args
  Program.writeChanges (outcome.world.tree.changesSince t)
  Program.printText (← IO.getStdout) outcome.world.stdout
  Program.printText (← IO.getStderr) outcome.world.log
  match outcome.failure with
  | none => return 0
  | some e =>
    Program.printText (← IO.getStderr) ("error: " ++ e.message ++ "\n")
    return 1
