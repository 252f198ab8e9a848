import CircuitNotes.Source.Outline

/-! The settings of a project. -/
namespace CircuitNotes

structure ScanSettings where
  includes : List String := ["**/*.py"]
  excludes : List String :=
    ["**/.git/**","**/.venv/**","**/venv/**","**/__pycache__/**","**/site-packages/**",
     "**/.circuitdoc/**"]
  constructor : String := defaultConstructor
  /-- How many files are explained at once; zero leaves the choice to the machine. -/
  jobs : Int := 0
  deriving DecidableEq, Repr

structure OutputSettings where
  document : String := "circuit.md"
  format : String := "json"
  docsFolder : String := ".circuitdoc/docs"
  deriving DecidableEq, Repr

structure HistorySettings where
  enabled : Bool := true
  deriving DecidableEq, Repr

structure LoggingSettings where
  level : String := "info"
  deriving DecidableEq, Repr

structure Config where
  scan : ScanSettings := {}
  output : OutputSettings := {}
  history : HistorySettings := {}
  logging : LoggingSettings := {}
  deriving DecidableEq, Repr

end CircuitNotes
