import CircuitNotes.Command.Flag
import CircuitNotes.Command.Suggestion

/-! The command line: what is to be done, and in which project. -/
namespace CircuitNotes

structure ExplainOptions where
  /-- The format of the result; empty for that of the settings. -/
  format : String := ""
  /-- The path of the document; empty for that of the settings. -/
  output : String := ""
  /-- Compare with the document instead of writing it. -/
  check : Bool := false
  printDocument : Bool := false
  noHistory : Bool := false
  deriving DecidableEq, Repr

structure ScanOptions where
  force : Bool := false
  /-- The folder of the documents; empty for that of the settings. -/
  docsFolder : String := ""
  jobs : Int := 0
  deriving DecidableEq, Repr

inductive Command
  | explain (file : String) (options : ExplainOptions)
  | scan (path : Option String) (options : ScanOptions)
  | history (json : Bool)
  | show (file : String)
  | gates (verbose : Bool)
  | help
  deriving DecidableEq, Repr

structure CommandLine where
  /-- The file of settings; empty for that of the project. -/
  configPath : String := ""
  /-- The folder of the project; empty for the working folder. -/
  root : String := ""
  command : Command
  deriving DecidableEq, Repr

namespace CommandLine

def programName : String := "circuitdoc"

def sharedFlags : List Flag := [⟨"config",none,.text⟩,⟨"dir",some 'd',.text⟩]

inductive OperandRule
  | exactly (n : Nat)
  | atMost (n : Nat)
  | none
  | any
  deriving DecidableEq, Repr

structure Form where
  name : String
  flags : List Flag := []
  operands : OperandRule := .any
  make : Arguments → Command

def operand (a : Arguments) : String := a.operands.head?.getD ""

def forms : List Form :=
  [{ name := "explain"
     flags :=
       [⟨"format",some 'f',.text⟩,⟨"output",some 'o',.text⟩,⟨"check",none,.switch⟩,
        ⟨"print-doc",none,.switch⟩,⟨"no-history",none,.switch⟩]
     operands := .exactly 1
     make := fun a => .explain (operand a)
       { format := a.text "format"
         output := a.text "output"
         check := a.switch "check"
         printDocument := a.switch "print-doc"
         noHistory := a.switch "no-history" } },
   { name := "gates"
     flags := [⟨"verbose",some 'v',.switch⟩]
     operands := .none
     make := fun a => .gates (a.switch "verbose") },
   { name := "history"
     flags := [⟨"json",none,.switch⟩]
     make := fun a => .history (a.switch "json") },
   { name := "scan"
     flags := [⟨"force",none,.switch⟩,⟨"docs-dir",none,.text⟩,⟨"jobs",some 'j',.int⟩]
     operands := .atMost 1
     make := fun a => .scan a.operands.head?
       { force := a.switch "force",docsFolder := a.text "docs-dir",jobs := a.int "jobs" } },
   { name := "show"
     operands := .exactly 1
     make := fun a => .show (operand a) },
   { name := "completion"
     make := fun _ => .help },
   { name := "help"
     make := fun _ => .help }]

def suggestible : List String := (forms.map (·.name)).filter (· != "help")

/-- Whether an argument is a flag whose value is the next argument. What is not known as a switch
counts as such a flag. -/
def takesNext (flags : List Flag) (arg : String) : Bool :=
  !arg.toList.contains '=' && match arg.toList with
    | '-' :: '-' :: name => !((Flag.byName? flags (String.ofList name)).any Flag.isSwitch)
    | ['-',c] => c.utf8Size == 1 && !((Flag.byLetter? flags c).any Flag.isSwitch)
    | _ => false

/-- The first argument that is no flag and no value of one. The search ends at a flag that nothing
follows but its value. -/
def firstWord? (flags : List Flag) : List String → Option String
  | [] => none
  | arg :: rest =>
    if arg == "--" then none
    else if takesNext flags arg then match rest with
      | _ :: next :: more => firstWord? flags (next :: more)
      | _ => none
    else if !arg.isEmpty && arg.toList.head? != some '-' then some arg
    else firstWord? flags rest

/-- The arguments without the first one that is a given word and no value of a flag. -/
def dropWord (flags : List Flag) (word : String) : List String → List String
  | [] => []
  | arg :: rest =>
    if arg == "--" then arg :: rest
    else if takesNext flags arg then match rest with
      | value :: more => arg :: value :: dropWord flags word more
      | [] => [arg]
    else if arg == word then rest
    else arg :: dropWord flags word rest

def checkOperands (form : Form) (operands : List String) : Except UsageError Unit :=
  let n := operands.length
  match form.operands with
  | .exactly wanted => if n = wanted then .ok () else .error (.notExactly wanted n)
  | .atMost most => if n ≤ most then .ok () else .error (.tooMany most n)
  | .none => match operands with
    | [] => .ok ()
    | word :: _ => .error (.unknownCommand word (programName ++ " " ++ form.name) [])
  | .any => .ok ()

def ofForm (form : Form) (args : List String) : Except UsageError CommandLine := do
  let a ← Arguments.read (form.flags ++ sharedFlags ++ [helpFlag]) args
  let shared (c : Command) : CommandLine := ⟨a.text "config",a.text "dir",c⟩
  if a.switch "help" then return shared .help
  checkOperands form a.operands
  return shared (form.make a)

def ofFlags (args : List String) : Except UsageError CommandLine := do
  let a ← Arguments.read (sharedFlags ++ [helpFlag]) args
  return ⟨a.text "config",a.text "dir",.help⟩

def ofArguments (args : List String) : Except UsageError CommandLine :=
  match firstWord? sharedFlags args with
  | none => ofFlags args
  | some word =>
    match forms.find? (·.name == word) with
    | some form => ofForm form (dropWord sharedFlags word args)
    | none => .error (.unknownCommand word programName (Suggestion.among suggestible word))

end CommandLine
end CircuitNotes
