import CircuitNotes.Command.Run

/-! Which files a command line reads. Of all others it is enough to know that they are there. -/
namespace CircuitNotes

def CommandLine.settingsFiles (l : CommandLine) (root : String) : List String :=
  [Path.join [root,".env"],Path.join [root,"circuitdoc.yaml"],
   Path.join [dataFolder root,"config.yaml"]] ++
    if l.configPath.isEmpty then [] else [l.configPath]

def Project.sources (p : Project) (t : FileTree) (c : Command) : List String :=
  historyPath p.root :: match c with
    | .explain file o =>
      [p.resolve file,p.explainedIn o]
    | .scan path o =>
      let start := (path.map p.resolve).getD p.root
      let job := p.scanJob p.selection t start o.force
      match t.walk job.selection job.root with
      | .ok files => start :: files.map (·.path)
      | .error _ => [start]
    | _ => []

/-- The files that a command line reads, when those of the settings are known. -/
def CommandLine.sources (l : CommandLine) (s : Surroundings) (t : FileTree) : List String :=
  match ((l.openProject s).run).run { tree := t } with
  | (.ok p,_) => p.sources t l.command
  | (.error _,_) => []

end CircuitNotes
