import CircuitNotes.Environment.Basic
import CircuitNotes.Text.Blank

/-! Files of variables: one definition to a line, `NAME=value`, with an optional `export` in front.
Values may stand between quotes, over several lines; between double quotes and without quotes `$NAME`
stands for the value of a variable that was defined before. -/
namespace CircuitNotes
namespace EnvironmentFile

/-! ### Characters -/

def backslash : UInt8 := 92
def dollar : UInt8 := 36
def newline : UInt8 := 10
def carriageReturn : UInt8 := 13
def hash : UInt8 := 35
def doubleQuote : UInt8 := 34
def singleQuote : UInt8 := 39

def isSpacing (c : Char) : Bool :=
  c == '\t' || c == '\x0b' || c == '\x0c' || c == '\r' || c == ' ' || c == '\u0085' || c == '\u00a0'

def byteChar (b : UInt8) : Char := Char.ofNat b.toNat

/-- The letters and the numbers among the characters above ASCII that one byte can stand for. -/
def isLatin (n : Nat) : Bool :=
  n ∈ [0xAA,0xB2,0xB3,0xB5,0xB9,0xBA,0xBC,0xBD,0xBE] ||
    (0xC0 ≤ n && n ≤ 0xFF && n != 0xD7 && n != 0xF7)

def isNameByte (b : UInt8) : Bool :=
  let c := byteChar b
  isSpacing c || c == '_' || c == '.' || c.isAlphanum || isLatin b.toNat

def dropStart (p : Char → Bool) (t : Text) : Text :=
  (t.glyphs.dropWhile fun g => p (Text.glyphChar g)).flatten

def dropEnd (p : Char → Bool) (t : Text) : Text :=
  (t.glyphs.reverse.dropWhile fun g => p (Text.glyphChar g)).reverse.flatten

/-! ### Names -/

/-- A name up to a sign of definition, and what follows. Without such a sign there is no name, and all
of the text follows; none if a byte cannot stand in a name. -/
def splitName? (t : Text) : Option (Text × Text) :=
  let name := t.takeWhile fun b => isNameByte b
  match t.drop name.length with
  | [] => some ([],t)
  | b :: rest => if b == 61 || b == 58 then some (name,rest) else none

def dropExport (t : Text) : Text :=
  let word : Text := "export"
  let rest := t.drop word.length
  if word.isPrefixOf t && ((Text.glyphs rest).head?.any fun g => isSpacing (Text.glyphChar g)) then
    dropStart isSpacing rest
  else t

/-! ### Values -/

def isReferenceByte (b : UInt8) : Bool :=
  let c := byteChar b
  c.isUpper || c.isDigit || c == '_'

def dropByte (b : UInt8) : Text → Text
  | c :: rest => if c == b then rest else c :: rest
  | [] => []

/-- What stands behind a dollar sign: the name referred to, and the rest after it. Brackets may
surround the name, in full or in part. -/
def reference (t : Text) : Text × Text :=
  let inner := dropByte 123 (dropByte 40 t)
  let name := inner.takeWhile isReferenceByte
  (name,dropByte 125 (inner.drop name.length))

theorem length_dropByte_le (b : UInt8) (t : Text) : (dropByte b t).length ≤ t.length := by
  unfold dropByte
  split
  · split <;> simp
  · simp

theorem length_reference_le (t : Text) : (reference t).2.length ≤ t.length := by
  have h₁ := length_dropByte_le 125
    ((dropByte 123 (dropByte 40 t)).drop ((dropByte 123 (dropByte 40 t)).takeWhile isReferenceByte).length)
  have h₂ := length_dropByte_le 123 (dropByte 40 t)
  have h₃ := length_dropByte_le 40 t
  simp only [reference,List.length_drop] at *
  omega

/-- The values of variables for references to them. A backslash keeps a reference as it is; a variable
that is not defined is empty. -/
def expand (defined : List (Text × Text)) : Text → Text
  | [] => []
  | b :: rest =>
    if b == backslash && rest.head? == some dollar then
      let r := reference (rest.drop 1)
      rest.take (rest.length - r.2.length) ++ expand defined r.2
    else if b == dollar then
      let r := reference rest
      (if r.1.isEmpty then b :: rest.take (rest.length - r.2.length)
        else (defined.lookup r.1).getD []) ++ expand defined r.2
    else b :: expand defined rest
termination_by t => t.length
decreasing_by
  · have := length_reference_le (rest.drop 1)
    simp only [List.length_drop,List.length_cons] at *
    omega
  · have := length_reference_le rest
    simp only [List.length_cons]
    omega
  · simp

/-- Line ends for their escapes; other escapes stay. -/
def expandLineEnds : List Text → List Text
  | g :: h :: rest =>
    if g == [backslash] && h != [newline] then
      if h == [110] then [newline] :: expandLineEnds rest
      else if h == [114] then [carriageReturn] :: expandLineEnds rest
      else g :: h :: expandLineEnds rest
    else g :: expandLineEnds (h :: rest)
  | gs => gs

/-- Escaped characters without their backslashes, dollar signs excepted. -/
def dropEscapes : List Text → List Text
  | g :: h :: rest =>
    if g == [backslash] && h != [dollar] then h :: dropEscapes rest else g :: dropEscapes (h :: rest)
  | gs => gs

def unescape (t : Text) : Text :=
  (dropEscapes (Text.glyphs (expandLineEnds t.glyphs).flatten)).flatten

/-- The length of the text before a closing quote, which no backslash precedes; `previous` is the byte
before. -/
def closing? (quote : UInt8) (previous : UInt8) : Text → Option Nat
  | [] => none
  | b :: rest =>
    if b == quote && previous != backslash then some 0
    else (closing? quote b rest).map (· + 1)

def quotedValue? (defined : List (Text × Text)) (quote : UInt8) (t : Text) : Option (Text × Text) := do
  let n ← closing? quote quote t
  let inner := (t.take n).dropWhile (· == quote)
  let value := (inner.reverse.dropWhile (· == quote)).reverse
  return (if quote == doubleQuote then expand defined (unescape value) else value,t.drop (n + 1))

/-- What stands before the last comment of a line, which begins with a hash sign behind spacing. The
line and the answer are written backwards. -/
def beforeComment? : List Char → Option (List Char)
  | [] => none
  | c :: rest =>
    if c == '#' && rest.head?.any isSpacing then some rest else beforeComment? rest

def dropComment (line : List Char) : List Char :=
  match beforeComment? line.reverse with
  | some kept => kept.reverse
  | none => line

def bareValue (defined : List (Text × Text)) (t : Text) : Text × Text :=
  let line := t.takeWhile fun b => b != newline && b != carriageReturn
  let value := dropComment (Text.chars line)
  let trimmed := dropEnd isSpacing (dropStart isSpacing (Text.ofString (String.ofList value)))
  (expand defined trimmed,t.drop line.length)

/-! ### Files -/

def skipBlank (fuel : Nat) (t : Text) : Text :=
  match fuel with
  | 0 => []
  | fuel + 1 =>
    match dropStart isBlank t with
    | [] => []
    | b :: rest =>
      if b == hash then skipBlank fuel (rest.dropWhile (· != newline)) else b :: rest

/-- One definition: the name, the value and what follows. Something must be exported. -/
def definition? (defined : List (Text × Text)) (t : Text) : Option (Text × Text × Text) := do
  let body := dropExport t
  if body.isEmpty then failure
  let (name,rest) ← splitName? body
  let rest := dropStart isSpacing rest
  let (value,rest) ← match rest with
    | b :: inner =>
      if b == doubleQuote || b == singleQuote then quotedValue? defined b inner
      else some (bareValue defined rest)
    | [] => some ([],[])
  return (dropEnd isBlank name,value,rest)

/-- The definitions of a text, the latest of each name. -/
def definitions? : Nat → List (Text × Text) → Text → Option (List (Text × Text))
  | 0, defined, _ => some defined
  | fuel + 1, defined, t =>
    match skipBlank t.length.succ t with
    | [] => some defined
    | rest => do
      let (name,value,after) ← definition? defined rest
      definitions? fuel ((name,value) :: defined.filter (·.1 != name)) after

def unifyLineEnds : Text → Text
  | [] => []
  | 13 :: 10 :: rest => 10 :: unifyLineEnds rest
  | b :: rest => b :: unifyLineEnds rest

/-- The variables that a file defines, those that can be set; none if the file is malformed. -/
def variables? (t : Text) : Option (List (String × String)) := do
  let defined ← definitions? t.length.succ [] (unifyLineEnds t)
  return (defined.filter fun (name,value) => !name.isEmpty && !value.contains 0).map
    fun (name,value) => (name.toString,value.toString)

end EnvironmentFile
end CircuitNotes
