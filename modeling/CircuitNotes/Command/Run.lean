import CircuitNotes.Command.Explain
import CircuitNotes.Command.Gates
import CircuitNotes.Command.History
import CircuitNotes.Command.Scan
import CircuitNotes.Environment.File

/-! Running a command line. -/
namespace CircuitNotes

structure Surroundings where
  environment : Environment := {}
  palette : Palette := ⟨false⟩
  now : Instant

namespace CommandLine

/-- A short help in words of its own. Nothing that a command does depends on it, and nothing is stated
about it. -/
def helpText : Text :=
  "Explain quantum circuits written in Python source

Usage:
  circuitdoc [command]

Commands:
  explain <file>   Explain the circuit declared in one source file
  gates            List the gates circuitdoc can explain
  history          List explained files recorded in the history store
  scan [path]      Explain every circuit source under a directory
  show <file>      Print the stored explanation of a file

Flags:
      --config string   config file (default is ./circuitdoc.yaml)
  -d, --dir string      root directory (default is current directory)
  -h, --help            show this text
"

def projectRoot (l : CommandLine) (t : FileTree) : String :=
  let here := Path.ofPieces true t.workingFolder
  Path.absolute here (if l.root.isEmpty then here else l.root)

/-- The environment with the variables of the project's own file, where it does not have them. A
malformed file defines nothing. -/
def projectEnvironment (env : Environment) (t : FileTree) (root : String) : Environment :=
  match t.read (Path.join [root,".env"]) with
  | .ok content => env.orElse ((EnvironmentFile.variables? content).getD [])
  | .error _ => env

def openProject (l : CommandLine) (s : Surroundings) : Work CommandError Project := do
  let t ← Work.files
  let root := l.projectRoot t
  let env := projectEnvironment s.environment t root
  match if l.configPath.isEmpty then Config.loadFrom t root else Config.load t l.configPath with
  | .error e => throw (.config e)
  | .ok c => do
    let p : Project := ⟨root,c.withEnvironment env,s.palette,s.now⟩
    p.log .debug ("config: constructor=" ++ p.config.scan.constructor ++ " format=" ++
      p.config.output.format ++ " document=" ++ p.config.output.document)
    return p

def execute (l : CommandLine) (s : Surroundings) : Work CommandError Unit :=
  match l.command with
  | .help => Work.print helpText
  | .explain file options => do (← l.openProject s).explain file options
  | .scan path options => do (← l.openProject s).scan path options
  | .history json => do (← l.openProject s).listHistory json
  | .show file => do (← l.openProject s).showRecord file
  | .gates verbose => do (← l.openProject s).listGates verbose

end CommandLine

structure Outcome where
  world : World
  failure : Option CommandError
  deriving DecidableEq, Repr

def Outcome.ofResult : Except CommandError Unit × World → Outcome
  | (.ok _,w) => ⟨w,none⟩
  | (.error e,w) => ⟨w,some e⟩

def run (s : Surroundings) (t : FileTree) (args : List String) : Outcome :=
  match CommandLine.ofArguments args with
  | .error e => ⟨{ tree := t },some (.usage e)⟩
  | .ok l => .ofResult (((l.execute s).run).run { tree := t })

end CircuitNotes
