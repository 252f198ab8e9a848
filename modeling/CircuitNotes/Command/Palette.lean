import CircuitNotes.Text.Basic

/-! Colours on a terminal. -/
namespace CircuitNotes

inductive Paint
  | heading
  | ok
  | dim
  deriving DecidableEq, Repr

structure Palette where
  isColored : Bool
  deriving DecidableEq, Repr

namespace Paint

def opening : Paint → String
  | heading => "36;1"
  | ok => "32"
  | dim => "2"

/-- The attributes that turn the paint off: each one that was turned on has its own. -/
def closing : Paint → String
  | heading => "0;22"
  | ok => "0"
  | dim => "22"

end Paint

namespace Palette

def escape (attributes : String) : String := "\x1b[" ++ attributes ++ "m"

def word (p : Palette) (paint : Paint) (t : Text) : Text :=
  if p.isColored then escape paint.opening ++ t ++ escape paint.closing else t

def lines (p : Palette) (paint : Paint) (t : Text) : Text :=
  if p.isColored then escape paint.opening ++ t ++ escape "0" else t

@[simp] theorem word_plain (paint : Paint) (t : Text) : Palette.word ⟨false⟩ paint t = t := rfl

@[simp] theorem lines_plain (paint : Paint) (t : Text) : Palette.lines ⟨false⟩ paint t = t := rfl

end Palette
end CircuitNotes
