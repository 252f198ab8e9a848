import CircuitNotes.Text.Basic

/-! Numbers as bytes, the most significant byte first. -/
namespace CircuitNotes

def bigEndian (width n : Nat) : Text :=
  ((List.range width).map fun i => (n >>> (8 * i)).toUInt8).reverse

def ofBigEndian (t : Text) : Nat := t.foldl (fun n b => n * 256 + b.toNat) 0

@[simp] theorem length_bigEndian (width n : Nat) : (bigEndian width n).length = width := by
  simp [bigEndian]

def byteSpan (width : Nat) : Nat := 1 <<< (8 * width)

/-- An integer in two's complement. -/
def bigEndianInt (width : Nat) (i : Int) : Text := bigEndian width (i % byteSpan width).toNat

def ofBigEndianInt (t : Text) : Int :=
  let n := ofBigEndian t
  if 2 * n < byteSpan t.length then n else (n : Int) - byteSpan t.length

end CircuitNotes
