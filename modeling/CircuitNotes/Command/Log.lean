import CircuitNotes.Command.Palette

/-! Messages beside the output, by their weight. -/
namespace CircuitNotes

inductive LogLevel
  | debug
  | info
  | warn
  deriving DecidableEq, Repr

namespace LogLevel

def name : LogLevel → String
  | debug => "debug"
  | info => "info"
  | warn => "warn"

def color : LogLevel → String
  | debug => "35"
  | info => "34"
  | warn => "33"

def weight : LogLevel → Nat
  | debug => 0
  | info => 1
  | warn => 2

def ofSetting (s : String) : LogLevel :=
  if s == "quiet" then warn else if s == "debug" then debug else info

def isShown (level least : LogLevel) : Bool := least.weight ≤ level.weight

def label (p : Palette) (level : LogLevel) : Text :=
  if p.isColored then Palette.escape level.color ++ level.name ++ Palette.escape "0" else level.name

def line (p : Palette) (level : LogLevel) (message : Text) : Text :=
  label p level ++ ": " ++ message ++ "\n"

end LogLevel
end CircuitNotes
