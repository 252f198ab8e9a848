import CircuitNotes.Config.Basic
import CircuitNotes.Environment.Basic
import CircuitNotes.Files.Tree
import CircuitNotes.Yaml.Mapping

/-! Settings from a file, and from the variables of the environment. What a file does not say keeps
its default. -/
namespace CircuitNotes

inductive ConfigError
  | unreadable (e : FileError)
  | malformed
  | mistyped (mismatches : List Yaml.Mismatch)
  deriving DecidableEq, Repr

def ConfigError.message : ConfigError → Text
  | unreadable e => e.message
  | malformed => "yaml"
  | mistyped ms =>
    Text.joinWith "\n" (Text.ofString "yaml: unmarshal errors:" ::
      ms.map fun m => Text.ofString "  " ++ m.message)

namespace Config

open Yaml.Decoding (KeyRule)

def scanFields : List (KeyRule ScanSettings) :=
  [.of "includes" Yaml.Decoding.texts fun v s => { s with includes := v },
   .of "excludes" Yaml.Decoding.texts fun v s => { s with excludes := v },
   .of "constructor" Yaml.Decoding.text fun v s => { s with constructor := v },
   .of "jobs" Yaml.Decoding.int fun v s => { s with jobs := v }]

def outputFields : List (KeyRule OutputSettings) :=
  [.of "document" Yaml.Decoding.text fun v s => { s with document := v },
   .of "format" Yaml.Decoding.text fun v s => { s with format := v },
   .of "docs_dir" Yaml.Decoding.text fun v s => { s with docsFolder := v }]

def historyFields : List (KeyRule HistorySettings) :=
  [.of "enabled" Yaml.Decoding.bool fun v s => { s with enabled := v }]

def loggingFields : List (KeyRule LoggingSettings) :=
  [.of "level" Yaml.Decoding.text fun v s => { s with level := v }]

def fields : List (KeyRule Config) :=
  [⟨"scan",fun n c => do
      let s ← Yaml.Decoding.struct "config.ScanConfig" scanFields n c.scan
      return { c with scan := s }⟩,
   ⟨"output",fun n c => do
      let s ← Yaml.Decoding.struct "config.OutputConfig" outputFields n c.output
      return { c with output := s }⟩,
   ⟨"history",fun n c => do
      let s ← Yaml.Decoding.struct "config.HistoryConfig" historyFields n c.history
      return { c with history := s }⟩,
   ⟨"logging",fun n c => do
      let s ← Yaml.Decoding.struct "config.LoggingConfig" loggingFields n c.logging
      return { c with logging := s }⟩]

def ofText (t : Text) : Except ConfigError Config :=
  match Yaml.firstDocument? t with
  | none => .error .malformed
  | some none => .ok {}
  | some (some tree) =>
    match Yaml.Decoding.ofTree tree fun n => Yaml.Decoding.struct "config.Config" fields n {} with
    | none => .error .malformed
    | some (c,[]) => .ok c
    | some (_,ms) => .error (.mistyped ms)

/-- The settings in a file. A file that does not exist holds the defaults. -/
def load (t : FileTree) (path : String) : Except ConfigError Config :=
  match t.read path with
  | .ok content => ofText content
  | .error e => if e.fault = .notFound then .ok {} else .error (.unreadable e)

/-- The settings of a project, from the first of its files that exists. -/
def loadFrom (t : FileTree) (root : String) : Except ConfigError Config :=
  let own := Path.join [root,"circuitdoc.yaml"]
  let hidden := Path.join [dataFolder root,"config.yaml"]
  if (t.stat own).isOk then load t own
  else if (t.stat hidden).isOk then load t hidden
  else .ok {}

/-- A number of jobs: decimal and not negative. -/
def jobs? (s : String) : Option Int :=
  match Integer.readDecimal s with
  | .ok n => if 0 ≤ n then some n else none
  | .error _ => none

/-- Variables go before what the files say. -/
def withEnvironment (c : Config) (env : Environment) : Config :=
  { c with
    scan.constructor := (env.value? "CIRCUITDOC_CONSTRUCTOR").getD c.scan.constructor
    scan.jobs := ((env.value? "CIRCUITDOC_JOBS").bind jobs?).getD c.scan.jobs
    output.document := (env.value? "CIRCUITDOC_DOCUMENT").getD c.output.document
    output.format := (env.value? "CIRCUITDOC_FORMAT").getD c.output.format
    logging.level := (env.value? "CIRCUITDOC_LOG_LEVEL").getD c.logging.level }

end Config
end CircuitNotes
