import CircuitNotes.Circuit.Basic
import CircuitNotes.Json.Basic
import CircuitNotes.Text.Column

/-! Circuits and records as they are shown: as JSON, or in lines of text. -/
namespace CircuitNotes

def Json.listOrNull {α : Type} (f : α → Json) : Option (List α) → Json
  | some xs => .list (xs.map f)
  | none => .null

def Gate.toJson (g : Gate) : Json :=
  .object <|
    [("name",.text g.name),("qubits",Json.listOrNull .int g.qubits)] ++
    (if g.params.isEmpty then [] else [("params",.list (g.params.map .text))]) ++
    (if g.unresolved.isEmpty then [] else [("unresolved",.list (g.unresolved.map .text))])

def Circuit.toJson (c : Circuit) : Json :=
  .object
    [("circuitName",.text c.name),("qubitNum",.int c.qubits),
     ("gates",Json.listOrNull Gate.toJson c.gates)]

def Block.toJson (b : Block) : Json :=
  .object [("heading",.text b.heading),("explanation",.text b.explanation)]

def Document.toJson (d : Document) : Json :=
  .object [("blocks",Json.listOrNull Block.toJson d.blocks)]

def Circuit.title (c : Circuit) : Text :=
  "Circuit " ++ c.name.quote ++ " (" ++ Text.ofInt c.qubits ++ " qubits)\n"

def Gate.line (number : Nat) (g : Gate) : Text :=
  let params : Text := if g.params.isEmpty then []
    else "  params: [" ++ Text.joinWith " " g.params ++ "]"
  "  " ++ (Text.ofNat number).padLeft 2 ++ ". " ++ g.name.padRight 12 ++ " qubits: [" ++
    qubitList (g.qubits.getD []) ++ "]" ++ params ++ "\n"

def Circuit.gateLines (c : Circuit) : Text :=
  ((c.gates.getD []).zipIdx 1).flatMap fun (g,number) => g.line number

end CircuitNotes
