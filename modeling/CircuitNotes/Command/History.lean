import CircuitNotes.Command.Project

/-! Listing the history and showing a record of it. -/
namespace CircuitNotes

def Record.toJson (r : Record) : Json :=
  .object
    [("path",.text r.path),("hash",.text r.hash),("mod_time",.int r.modified),
     ("result",r.circuit.toJson),("document",r.document.toJson),
     ("explained_at",.text r.explainedAt.iso)]

namespace Project

def existingHistory (p : Project) : Work CommandError Connection := do
  if p.lacksHistory (← Work.files) then throw .noHistory
  (p.openHistory).because .unopenedHistory

/-- One record in a listing. Its path is shown from the folder of the project where that is
possible. -/
def recordLine (p : Project) (r : Record) : Text :=
  let path : Text := match Path.relative? p.root (Text.toString r.path) with
    | some rel => rel
    | none => r.path
  let name : Text := if r.circuit.name.isEmpty then "-" else r.circuit.name
  path.padRight 40 ++ " " ++ name.padRight 10 ++ " " ++ (Text.ofInt r.circuit.qubits).padLeft 3 ++
    " qubits " ++ (Text.ofNat r.circuit.gateCount).padLeft 4 ++ " gates  " ++
    p.palette.word .dim r.explainedAt.listing ++ "\n"

/-- Lists the history. Without records, as JSON, there is no list. -/
def listHistory (p : Project) (json : Bool) : Work CommandError Unit := do
  let c ← p.existingHistory
  match c.ask Database.list with
  | .error e => throw (.history e)
  | .ok records =>
    if json then
      let listing : Json := if records.isEmpty then .null else .list (records.map Record.toJson)
      Work.print (listing.pretty 0 ++ "\n")
    else if records.isEmpty then Work.print "History is empty.\n"
    else Work.print (records.flatMap p.recordLine)

def showRecord (p : Project) (argument : String) : Work CommandError Unit := do
  let c ← p.existingHistory
  match c.ask (·.get (p.resolve argument)) with
  | .error (.notFound _) => throw (.noRecord argument)
  | .error e => throw (.history e)
  | .ok r =>
    p.printResult p.config.output.format r.circuit
    Work.print ("\n" ++ r.document.markdown)

end Project
end CircuitNotes
