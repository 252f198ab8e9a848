import CircuitNotes.Text.Basic

/-! The characters of a YAML stream. A carriage return with a line feed behind it is one character
here, the carriage return; a carriage return alone is a line feed. -/
namespace CircuitNotes
namespace Yaml

def isSpacing (c : Char) : Bool := c == ' ' || c == '\t'

def nextLine : Char := '\u0085'
def lineSeparator : Char := '\u2028'
def paragraphSeparator : Char := '\u2029'
def byteOrderMark : Char := '\ufeff'

def isBreak (c : Char) : Bool :=
  c == '\n' || c == '\r' || c == nextLine || c == lineSeparator || c == paragraphSeparator

/-- What a break is in the text of a scalar: a line feed, unless it is one of the two separators. -/
def breakText (c : Char) : Char := if c == '\r' || c == nextLine then '\n' else c

/-- Whether a stream holds no more on this word: it ends here, or goes on with spacing or a break. -/
def endsWord : List Char → Bool
  | [] => true
  | c :: _ => isSpacing c || isBreak c

def isAllowed (c : Char) : Bool :=
  let n := c.toNat
  n == 0x9 || n == 0xA || n == 0xD || (0x20 ≤ n && n ≤ 0x7E) || n == 0x85 ||
    (0xA0 ≤ n && n ≤ 0xD7FF) || (0xE000 ≤ n && n ≤ 0xFFFD) || 0x10000 ≤ n

/-- The characters with each carriage return alone or before a line feed made one break. -/
def joinBreaks : List Char → List Char
  | [] => []
  | '\r' :: '\n' :: rest => '\r' :: joinBreaks rest
  | c :: rest => (if c == '\r' then '\n' else c) :: joinBreaks rest

def isMarker : List Char → Bool
  | '-' :: '-' :: '-' :: rest => endsWord rest
  | '.' :: '.' :: '.' :: rest => endsWord rest
  | _ => false

inductive Gap
  | none
  | spaces (cs : List Char)
  /-- A first break, unless it was escaped, and the breaks of empty lines after it. -/
  | broken (first : Option Char) (more : List Char)
  deriving DecidableEq, Repr

namespace Gap

def isBroken : Gap → Bool
  | broken _ _ => true
  | _ => false

/-- The gap with one more character of spacing; after a break it does not count. -/
def addSpacing (c : Char) : Gap → Gap
  | none => spaces [c]
  | spaces cs => spaces (cs ++ [c])
  | g => g

/-- The gap with one more break; spacing before the first one does not count. -/
def addBreak (c : Char) : Gap → Gap
  | broken first more => broken first (more ++ [breakText c])
  | _ => broken (some (breakText c)) []

/-- What a gap stands for. A single line feed becomes a space, and further ones are kept. -/
def fill : Gap → List Char
  | none => []
  | spaces cs => cs
  | broken (some '\n') [] => [' ']
  | broken (some '\n') more => more
  | broken (some c) more => c :: more
  | broken Option.none more => more

end Gap
end Yaml
end CircuitNotes
