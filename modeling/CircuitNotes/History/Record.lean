import CircuitNotes.Circuit.Basic
import CircuitNotes.Time.Instant

/-! Records of explained files. -/
namespace CircuitNotes

/-- What is remembered of an explained file: where it is, the digest and the modification time (in
seconds) of the source that was explained, the explanation, and when it was made. -/
structure Record where
  path : Text := []
  hash : Text := []
  modified : Int := 0
  circuit : Circuit := {}
  document : Document := {}
  explainedAt : Instant := .unset
  deriving DecidableEq, Repr, Inhabited

def Record.explanation (r : Record) : Explanation := ⟨r.circuit,r.document⟩

end CircuitNotes
