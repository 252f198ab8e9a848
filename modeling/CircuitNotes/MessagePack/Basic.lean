import CircuitNotes.Number.BigEndian

/-! The binary format MessagePack: how single values are written, and a reader for any value. -/
namespace CircuitNotes

/-- A value of the format. A number with a fraction is kept as the bytes that stand for it. -/
inductive MessagePack
  | nil
  | bool (b : Bool)
  | int (i : Int)
  | float (bytes : Text)
  | text (t : Text)
  | list (items : List MessagePack)
  | map (fields : List (MessagePack × MessagePack))
  | extension (kind : UInt8) (data : Text)
  deriving Inhabited

namespace MessagePack

/-! ### Writing -/

def writeNil : Text := [0xC0]

/-- A text behind the shortest header that holds its length. -/
def writeText (t : Text) : Text :=
  let n := t.length
  (if n < 32 then [(0xA0 + n).toUInt8]
   else if n < 256 then 0xD9 :: bigEndian 1 n
   else if n < 65536 then 0xDA :: bigEndian 2 n
   else 0xDB :: bigEndian 4 n) ++ t

def writeListHeader (n : Nat) : Text :=
  if n < 16 then [(0x90 + n).toUInt8]
  else if n < 65536 then 0xDC :: bigEndian 2 n
  else 0xDD :: bigEndian 4 n

def writeList (items : List Text) : Text := writeListHeader items.length ++ items.flatten

/-- An integer of 64 bits in nine bytes, whatever its size. -/
def writeLong (i : Int) : Text := 0xD3 :: bigEndianInt 8 i

/-- An integer in the fewest bytes; one that is not negative takes an unsigned form. -/
def writeInt (i : Int) : Text :=
  if 0 ≤ i then
    let n := i.toNat
    if n < 128 then [n.toUInt8]
    else if n < 256 then 0xCC :: bigEndian 1 n
    else if n < 65536 then 0xCD :: bigEndian 2 n
    else if n < 4294967296 then 0xCE :: bigEndian 4 n
    else 0xCF :: bigEndian 8 n
  else if -32 ≤ i then bigEndianInt 1 i
  else if -128 ≤ i then 0xD0 :: bigEndianInt 1 i
  else if -32768 ≤ i then 0xD1 :: bigEndianInt 2 i
  else if -2147483648 ≤ i then 0xD2 :: bigEndianInt 4 i
  else writeLong i

/-- A map of at most fifteen fields. -/
def writeFields (fields : List (String × Text)) : Text :=
  (0x80 + fields.length).toUInt8 :: fields.flatMap fun f => writeText f.1 ++ f.2

/-! ### Reading -/

def take? (n : Nat) (t : Text) : Option (Text × Text) :=
  if n ≤ t.length then some (t.take n,t.drop n) else none

theorem take?_append (a rest : Text) : take? a.length (a ++ rest) = some (a,rest) := by
  simp [take?]

def readNat (width : Nat) (t : Text) : Option (Nat × Text) := do
  let (bytes,rest) ← take? width t
  return (ofBigEndian bytes,rest)

def readLong (width : Nat) (t : Text) : Option (Int × Text) := do
  let (bytes,rest) ← take? width t
  return (ofBigEndianInt bytes,rest)

def readText (n : Nat) (t : Text) : Option (MessagePack × Text) := do
  let (bytes,rest) ← take? n t
  return (text bytes,rest)

def readFloat (width : Nat) (t : Text) : Option (MessagePack × Text) := do
  let (bytes,rest) ← take? width t
  return (float bytes,rest)

def readExtension (n : Nat) (t : Text) : Option (MessagePack × Text) := do
  let (kind,rest) ← take? 1 t
  let (data,rest) ← take? n rest
  return (extension (kind.headD 0) data,rest)

abbrev Reader := Text → Option (MessagePack × Text)

def readItems (read : Reader) : Nat → Text → Option (List MessagePack × Text)
  | 0, t => some ([],t)
  | n + 1, t => do
    let (item,rest) ← read t
    let (items,rest) ← readItems read n rest
    return (item :: items,rest)

def readPairs (read : Reader) : Nat → Text → Option (List (MessagePack × MessagePack) × Text)
  | 0, t => some ([],t)
  | n + 1, t => do
    let (key,rest) ← read t
    let (value,rest) ← read rest
    let (pairs,rest) ← readPairs read n rest
    return ((key,value) :: pairs,rest)

def readList (read : Reader) (n : Nat) (t : Text) : Option (MessagePack × Text) := do
  let (items,rest) ← readItems read n t
  return (list items,rest)

def readMap (read : Reader) (n : Nat) (t : Text) : Option (MessagePack × Text) := do
  let (pairs,rest) ← readPairs read n t
  return (map pairs,rest)

/-- What a first byte announces, with `inner` to read the values inside. -/
def readAfter (inner : Reader) (b : UInt8) (rest : Text) : Option (MessagePack × Text) :=
  let counted (width : Nat) (read : Nat → Reader) : Option (MessagePack × Text) := do
    let (n,rest) ← readNat width rest
    read n rest
  if b < 0x80 then some (int b.toNat,rest)
  else if b < 0x90 then readMap inner (b.toNat - 0x80) rest
  else if b < 0xA0 then readList inner (b.toNat - 0x90) rest
  else if b < 0xC0 then readText (b.toNat - 0xA0) rest
  else if 0xE0 ≤ b then some (int (b.toNat - 256),rest)
  else match b with
    | 0xC0 => some (nil,rest)
    | 0xC2 => some (bool false,rest)
    | 0xC3 => some (bool true,rest)
    | 0xC4 | 0xD9 => counted 1 readText
    | 0xC5 | 0xDA => counted 2 readText
    | 0xC6 | 0xDB => counted 4 readText
    | 0xC7 => counted 1 readExtension
    | 0xC8 => counted 2 readExtension
    | 0xC9 => counted 4 readExtension
    | 0xCA => readFloat 4 rest
    | 0xCB => readFloat 8 rest
    | 0xCC => do let (n,rest) ← readNat 1 rest; return (int n,rest)
    | 0xCD => do let (n,rest) ← readNat 2 rest; return (int n,rest)
    | 0xCE => do let (n,rest) ← readNat 4 rest; return (int n,rest)
    | 0xCF => do let (n,rest) ← readNat 8 rest; return (int n,rest)
    | 0xD0 => do let (i,rest) ← readLong 1 rest; return (int i,rest)
    | 0xD1 => do let (i,rest) ← readLong 2 rest; return (int i,rest)
    | 0xD2 => do let (i,rest) ← readLong 4 rest; return (int i,rest)
    | 0xD3 => do let (i,rest) ← readLong 8 rest; return (int i,rest)
    | 0xD4 => readExtension 1 rest
    | 0xD5 => readExtension 2 rest
    | 0xD6 => readExtension 4 rest
    | 0xD7 => readExtension 8 rest
    | 0xD8 => readExtension 16 rest
    | 0xDC => counted 2 (readList inner)
    | 0xDD => counted 4 (readList inner)
    | 0xDE => counted 2 (readMap inner)
    | 0xDF => counted 4 (readMap inner)
    | _ => none

/-- One value nested no deeper than `depth`, and the bytes after it. -/
def read : Nat → Reader
  | 0, _ => none
  | _ + 1, [] => none
  | depth + 1, b :: rest => readAfter (read depth) b rest

/-- The value at the start of a text; a value cannot be nested deeper than it has bytes. -/
def read? (t : Text) : Option (MessagePack × Text) := read t.length t

end MessagePack
end CircuitNotes
