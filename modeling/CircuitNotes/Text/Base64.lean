import CircuitNotes.Text.Basic

/-! Bytes written in base 64: four characters for three bytes, with padding at the end. Line ends
count for nothing. -/
namespace CircuitNotes
namespace Base64

def digit? (c : Char) : Option Nat :=
  if 'A' ≤ c && c ≤ 'Z' then some (c.toNat - 65)
  else if 'a' ≤ c && c ≤ 'z' then some (c.toNat - 71)
  else if '0' ≤ c && c ≤ '9' then some (c.toNat + 4)
  else if c == '+' then some 62
  else if c == '/' then some 63
  else none

def decodeChars? : List Char → Option Text
  | [] => some []
  | [a,b,'=','='] => do
    let x ← digit? a
    let y ← digit? b
    return [UInt8.ofNat (x * 4 + y / 16)]
  | [a,b,c,'='] => do
    let x ← digit? a
    let y ← digit? b
    let z ← digit? c
    return [UInt8.ofNat (x * 4 + y / 16),UInt8.ofNat (y % 16 * 16 + z / 4)]
  | a :: b :: c :: d :: rest => do
    let x ← digit? a
    let y ← digit? b
    let z ← digit? c
    let w ← digit? d
    let more ← decodeChars? rest
    return UInt8.ofNat (x * 4 + y / 16) :: UInt8.ofNat (y % 16 * 16 + z / 4) ::
      UInt8.ofNat (z % 4 * 64 + w) :: more
  | _ => none

def decode? (s : String) : Option Text :=
  decodeChars? (s.toList.filter fun c => c != '\r' && c != '\n')

end Base64
end CircuitNotes
