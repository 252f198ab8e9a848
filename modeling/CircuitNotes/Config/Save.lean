import CircuitNotes.Config.Basic
import CircuitNotes.Files.Tree
import CircuitNotes.Yaml.Printer

/-! Settings written to a file. -/
namespace CircuitNotes
namespace Config

def sections (c : Config) : List (String × List (String × Yaml.Printer.Value)) :=
  [("scan",
    [("includes",.texts c.scan.includes),("excludes",.texts c.scan.excludes),
     ("constructor",.text c.scan.constructor),("jobs",.int c.scan.jobs)]),
   ("output",
    [("document",.text c.output.document),("format",.text c.output.format),
     ("docs_dir",.text c.output.docsFolder)]),
   ("history",[("enabled",.bool c.history.enabled)]),
   ("logging",[("level",.text c.logging.level)])]

def toText (c : Config) : Text := Yaml.Printer.document (sections c)

def save (c : Config) (t : FileTree) (now : Int) (path : String) : Except FileError FileTree :=
  t.write now path (toText c)

end Config
end CircuitNotes
