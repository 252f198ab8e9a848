import CircuitNotes.Command.Project
import CircuitNotes.Gate.Catalog

/-! Listing the gates that can be explained. -/
namespace CircuitNotes

def CatalogEntry.line (p : Palette) (verbose : Bool) (e : CatalogEntry) : Text :=
  let sentence : Text := if verbose then "         " ++ e.template ++ "\n" else []
  (p.word .heading e.mnemonic).padRight 8 ++ " " ++ e.display.padRight 14 ++ " " ++
    p.word .dim e.arity.name ++ "\n" ++ sentence

def Project.listGates (p : Project) (verbose : Bool) : Work CommandError Unit :=
  Work.print (Catalog.entries.flatMap (CatalogEntry.line p.palette verbose))

end CircuitNotes
