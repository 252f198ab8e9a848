/-! Byte texts. Sources and documents are kept as bytes, so that nothing is lost when a file is not
UTF-8; `glyphs` cuts a text into characters and stray bytes, and `toString` is the view for readers,
in which every stray byte shows as U+FFFD. -/
namespace CircuitNotes

/-- The bytes of a source, an argument or a document. UTF-8 is usual and never required. -/
abbrev Text := List UInt8

namespace Text

def ofString (s : String) : Text := s.toList.flatMap String.utf8EncodeChar

instance : Coe String Text := ⟨ofString⟩

theorem ofString_append (s t : String) : ofString (s ++ t) = ofString s ++ ofString t := by
  simp [ofString]

/-- What must follow a leading byte of a longer encoding: how many bytes, and the bounds of the
first of them. The bounds leave out overlong forms, surrogates and what lies past U+10FFFF. -/
def lead (b : UInt8) : Option (Nat × UInt8 × UInt8) :=
  if 0xC2 ≤ b && b ≤ 0xDF then some (1,0x80,0xBF)
  else if b == 0xE0 then some (2,0xA0,0xBF)
  else if b == 0xED then some (2,0x80,0x9F)
  else if 0xE1 ≤ b && b ≤ 0xEF then some (2,0x80,0xBF)
  else if b == 0xF0 then some (3,0x90,0xBF)
  else if 0xF1 ≤ b && b ≤ 0xF3 then some (3,0x80,0xBF)
  else if b == 0xF4 then some (3,0x80,0x8F)
  else none

/-- The number of bytes after `b` that belong to the character `b` starts; none for a byte below
0x80 and for a stray byte. -/
def following (b : UInt8) (rest : Text) : Nat :=
  match lead b, rest with
  | some (n,lo,hi), c :: cs =>
    if lo ≤ c && c ≤ hi && n ≤ cs.length + 1 && (cs.take (n - 1)).all (fun d => 0x80 ≤ d && d ≤ 0xBF)
    then n else 0
  | _, _ => 0

def glyphsFrom : Nat → Text → List Text
  | _, [] => []
  | 0, b :: rest =>
    let n := following b rest
    (b :: rest.take n) :: glyphsFrom n rest
  | skip + 1, _ :: rest => glyphsFrom skip rest

/-- The text cut into the encodings of its characters and its stray bytes, each byte of these alone. -/
def glyphs (t : Text) : List Text := glyphsFrom 0 t

theorem flatten_glyphsFrom (t : Text) (skip : Nat) : (glyphsFrom skip t).flatten = t.drop skip := by
  induction t generalizing skip with
  | nil => simp [glyphsFrom]
  | cons b rest ih =>
    cases skip with
    | zero => simp [glyphsFrom,ih]
    | succ skip => simp [glyphsFrom,ih]

@[simp] theorem flatten_glyphs (t : Text) : (glyphs t).flatten = t := by
  simp [glyphs,flatten_glyphsFrom]

def glyphChar : Text → Char
  | [a] => if a < 0x80 then Char.ofNat a.toNat else '�'
  | [a,b] => Char.ofNat (a.toNat % 32 * 64 + b.toNat % 64)
  | [a,b,c] => Char.ofNat (a.toNat % 16 * 4096 + b.toNat % 64 * 64 + c.toNat % 64)
  | [a,b,c,d] =>
    Char.ofNat (a.toNat % 8 * 262144 + b.toNat % 64 * 4096 + c.toNat % 64 * 64 + d.toNat % 64)
  | _ => '�'

/-- The characters of a text, with U+FFFD in the place of each stray byte. -/
def chars (t : Text) : List Char := (glyphs t).map glyphChar

def toString (t : Text) : String := String.ofList (chars t)

def isUtf8 (t : Text) : Bool :=
  (glyphs t).all fun g => match g with
    | [a] => a < 0x80
    | _ => true

/-- The pieces of a text between the bytes equal to `sep`; always one more than these bytes. -/
def splitOn (sep : UInt8) : Text → List Text
  | [] => [[]]
  | b :: rest =>
    if b == sep then [] :: splitOn sep rest
    else match splitOn sep rest with
      | [] => [[b]]
      | piece :: pieces => (b :: piece) :: pieces

theorem splitOn_ne_nil (sep : UInt8) (t : Text) : splitOn sep t ≠ [] := by
  cases t with
  | nil => simp [splitOn]
  | cons b rest =>
    simp only [splitOn]
    split
    · simp
    · split <;> simp

def joinWith (sep : Text) : List Text → Text
  | [] => []
  | [t] => t
  | t :: u :: rest => t ++ sep ++ joinWith sep (u :: rest)

theorem joinWith_splitOn (sep : UInt8) (t : Text) : joinWith [sep] (splitOn sep t) = t := by
  induction t with
  | nil => rfl
  | cons b rest ih =>
    simp only [splitOn]
    split
    · rename_i h
      have hb : b = sep := by simpa using h
      cases hs : splitOn sep rest with
      | nil => exact absurd hs (splitOn_ne_nil sep rest)
      | cons piece pieces => simp [joinWith,← hs,ih,hb]
    · cases hs : splitOn sep rest with
      | nil => exact absurd hs (splitOn_ne_nil sep rest)
      | cons piece pieces =>
        rw [hs] at ih
        cases pieces with
        | nil => simp_all [joinWith]
        | cons q qs => simpa [joinWith] using ih

def toHex (t : Text) : String :=
  String.ofList (t.flatMap fun b => [Nat.digitChar (b.toNat / 16),Nat.digitChar (b.toNat % 16)])

def hexValue? (c : Char) : Option UInt8 :=
  if '0' ≤ c && c ≤ '9' then some (c.toNat - '0'.toNat).toUInt8
  else if 'a' ≤ c && c ≤ 'f' then some (c.toNat - 'a'.toNat + 10).toUInt8
  else if 'A' ≤ c && c ≤ 'F' then some (c.toNat - 'A'.toNat + 10).toUInt8
  else none

def ofHexDigits? : List Char → Option Text
  | [] => some []
  | [_] => none
  | a :: b :: rest => do
    let hi ← hexValue? a
    let lo ← hexValue? b
    let bytes ← ofHexDigits? rest
    return (hi * 16 + lo) :: bytes

def ofHex? (s : String) : Option Text := ofHexDigits? s.toList

def ofNat (n : Nat) : Text := ofString (Nat.repr n)

def ofInt (i : Int) : Text := ofString (if i < 0 then "-" ++ Nat.repr i.natAbs else Nat.repr i.natAbs)

end Text
end CircuitNotes
