import CircuitNotes.Digest.Sha256
import CircuitNotes.Json.Basic

/-! The fingerprint of the settings that stored explanations depend on: the constructor keyword. -/
namespace CircuitNotes

def fingerprintText (constructor : String) : Text :=
  "\x7b\"constructor\":" ++ Json.quote constructor ++ "\x7d"

/-- The first eight bytes of the digest, in hexadecimal digits. -/
def fingerprint (constructor : String) : Text :=
  Text.ofString (Text.toHex ((Sha256.digest (fingerprintText constructor)).take 8))

end CircuitNotes
