import CircuitNotes.Text.Blank

/-! The two kinds of source lines that matter: the declaration of a circuit, anywhere in its line,
and a call on the declared circuit, at the start of its line. -/
namespace CircuitNotes
namespace Line

def isDigit (b : UInt8) : Bool := '0'.toUInt8 ≤ b && b ≤ '9'.toUInt8

def isLetter (b : UInt8) : Bool :=
  ('a'.toUInt8 ≤ b && b ≤ 'z'.toUInt8) || ('A'.toUInt8 ≤ b && b ≤ 'Z'.toUInt8)

def isWord (b : UInt8) : Bool := isLetter b || isDigit b || b == '_'.toUInt8

def isNameStart (b : UInt8) : Bool := isLetter b || b == '_'.toUInt8

def isSpace (b : UInt8) : Bool := b == 9 || b == 10 || b == 12 || b == 13 || b == 32

def after? (c : Char) : Text → Option Text
  | [] => none
  | b :: rest => if b == c.toUInt8 then some rest else none

/-- What follows a keyword at the front of a text. The comparison is by character, and a stray byte
is read as U+FFFD. -/
def afterKeyword? : List Char → List Text → Option (List Text)
  | [], glyphs => some glyphs
  | _, [] => none
  | c :: cs, g :: gs => if Text.glyphChar g == c then afterKeyword? cs gs else none

def countInParens? (t : Text) : Option Text := do
  let t ← after? '(' t
  let digits := t.takeWhile isDigit
  if digits.isEmpty then none
  let _ ← after? ')' (t.drop digits.length)
  return digits

def constructed? (keyword : String) (t : Text) : Option Text := do
  let rest ← afterKeyword? keyword.toList t.glyphs
  countInParens? rest.flatten

/-- The count of `keyword(count)` after a run of spaces, of which the keyword may take the last. -/
def constructedAfterSpaces? (keyword : String) : Text → Option Text
  | [] => constructed? keyword []
  | b :: rest =>
    match (if isSpace b then constructedAfterSpaces? keyword rest else none) with
    | some count => some count
    | none => constructed? keyword (b :: rest)

def assigned? (keyword : String) (t : Text) : Option Text := do
  let t ← after? '=' (t.dropWhile isSpace)
  constructedAfterSpaces? keyword t

/-- The name and the count of the leftmost declaration in a line, the first `skip` bytes left out. A
name that is not followed by a declaration is passed over as a whole. -/
def declarationFrom? (keyword : String) : Nat → Text → Option (Text × Text)
  | _, [] => none
  | skip + 1, _ :: rest => declarationFrom? keyword skip rest
  | 0, b :: rest =>
    if isWord b then
      let word := b :: rest.takeWhile isWord
      match assigned? keyword (rest.dropWhile isWord) with
      | some count => some (word,count)
      | none => declarationFrom? keyword (word.length - 1) rest
    else declarationFrom? keyword 0 rest

def declaration? (keyword : String) (line : Text) : Option (Text × Text) :=
  declarationFrom? keyword 0 line

/-- The method and the arguments of a call on `name` at the front of a line. The arguments end at the
first closing parenthesis. -/
def call? (name : Text) (line : Text) : Option (Text × Text) := do
  if !name.isPrefixOf line then none
  let t ← after? '.' (line.drop name.length)
  let method := t.takeWhile isWord
  if !(method.head?.any isNameStart) then none
  let t ← after? '(' (t.drop method.length)
  let args := t.takeWhile (· != ')'.toUInt8)
  let _ ← after? ')' (t.drop args.length)
  return (method,args)

end Line
end CircuitNotes
