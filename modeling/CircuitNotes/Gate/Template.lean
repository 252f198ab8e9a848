import CircuitNotes.Gate.Operands

/-! Sentences with holes. A hole is a name between braces; filling replaces the first hole of each
known name by an operand and copies everything else, without looking at what was put in. -/
namespace CircuitNotes

inductive Placeholder
  | slot (i : Nat)
  | param (i : Nat)
  deriving DecidableEq, Repr

namespace Placeholder

def named : List (Text × Placeholder) :=
  [("qubit",slot 0),("control",slot 0),("qubit1",slot 0),
   ("target",slot 1),("qubit2",slot 1),("qubit3",slot 2),
   ("theta",param 0),("phi",param 1),("lambda",param 2)]

def ofName? (name : Text) : Option Placeholder := named.lookup name

def missing : Text := "?"

def value (ops : Operands) : Placeholder → Text
  | slot i => "qubit " ++ ((ops.slots[i]?).map Slot.label).getD missing
  | param i =>
    let t := (ops.params[i]?).getD []
    if t.isEmpty then missing else t

end Placeholder

namespace Template

def opening : UInt8 := 123
def closing : UInt8 := 125

def hole (name : String) : Text := opening :: Text.ofString name ++ [closing]

/-- The name of the hole whose opening brace stands just before the text. -/
def holeName? (t : Text) : Option Text :=
  let name := t.takeWhile fun b => b != opening && b != closing
  if t[name.length]? = some closing then some name else none

/-- The filled template after its first `skip` bytes, when the names in `used` have been filled. -/
def fillFrom (ops : Operands) : List Text → Nat → Text → Text
  | _, _, [] => []
  | used, skip + 1, _ :: rest => fillFrom ops used skip rest
  | used, 0, b :: rest =>
    if b == opening then
      match holeName? rest with
      | some name =>
        match Placeholder.ofName? name with
        | some p =>
          if name ∈ used then b :: fillFrom ops used 0 rest
          else p.value ops ++ fillFrom ops (name :: used) (name.length + 1) rest
        | none => b :: fillFrom ops used 0 rest
      | none => b :: fillFrom ops used 0 rest
    else b :: fillFrom ops used 0 rest

def fill (template : Text) (ops : Operands) : Text := fillFrom ops [] 0 template

end Template

def heading (display : Text) (slots : List Slot) : Text :=
  match slots with
  | [] => "### " ++ display ++ " Gate"
  | _ => "### " ++ display ++ " Gate on " ++ Text.joinWith ", " (slots.map Slot.label)

end CircuitNotes
