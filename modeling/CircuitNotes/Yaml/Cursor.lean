import CircuitNotes.Yaml.Stream

/-! Where a reader is in a stream, and how much of the stream it has taken in. Whatever looks at
characters first asks for as many as it may look at, and so takes in the portions that hold them. -/
namespace CircuitNotes
namespace Yaml

/-- A place in a stream. Lines and columns count from zero. -/
structure Pos where
  line : Nat := 0
  column : Nat := 0
  index : Nat := 0
  deriving DecidableEq, Repr

structure Window where
  /-- The characters that were taken in and not yet passed, the end of the stream included. -/
  unread : Nat := 0
  /-- The numbers of characters in the portions to come. -/
  portions : List Nat := []
  /-- Whether the last of these portions has a fault. -/
  spoiled : Bool := false
  /-- Whether the characters that were kept when the last portion was taken in start with a byte order
  mark. As long as they do, the first character of each line is passed over. -/
  marked : Bool := false
  deriving DecidableEq, Repr

/-- Takes in portions until `k` characters are unread. Behind the last portion comes the end of the
stream, once for each time that it is asked for. The answer tells whether no fault was met. -/
def Window.fill (k : Nat) (spoiled : Bool) : Nat → List Nat → Nat × List Nat × Bool
  | unread, [] => if spoiled then (unread,[],false) else (unread + 1,[],true)
  | unread, n :: more =>
    if more.isEmpty && spoiled then (unread + n,[],false)
    else if k ≤ unread + n then (unread + n,more,true)
    else fill k spoiled (unread + n) more

structure Cursor extends Pos where
  window : Window := {}
  deriving DecidableEq, Repr

namespace Cursor

/-- Asks for `k` characters from here on, where the stream goes on with `rest`. The answer tells
whether they, or the end of the stream, could be taken in. -/
def reach (k : Nat) (rest : List Char) (cur : Cursor) : Cursor × Bool :=
  let w := cur.window
  if k ≤ w.unread then (cur,true)
  else
    let (unread,portions,sound) := Window.fill k w.spoiled w.unread w.portions
    let marked := rest.head? == some byteOrderMark
    ({ cur with window := ⟨unread,portions,w.spoiled,marked⟩ },sound)

def need (k : Nat) (rest : List Char) (cur : Cursor) : Option Cursor :=
  match cur.reach k rest with
  | (cur,true) => some cur
  | (_,false) => none

/-- The number of characters that a break was before it became one. -/
def widthOf (c : Char) : Nat := if c == '\r' then 2 else 1

def along (n : Nat) (cur : Cursor) : Cursor :=
  { cur with
    column := cur.column + n
    index := cur.index + n
    window.unread := cur.window.unread - n }

def next (c : Char) (cur : Cursor) : Cursor :=
  if isBreak c then { cur.along (widthOf c) with line := cur.line + 1,column := 0 }
  else cur.along 1

/-- Passes over `n` characters and asks for one more behind each of them. -/
def read : Nat → List Char → Cursor → Option (Cursor × List Char)
  | n + 1, c :: rest, cur => do
    let cur ← (cur.next c).need 1 rest
    read n rest cur
  | _, cs, cur => some (cur,cs)

def readBreak (cs : List Char) (cur : Cursor) : Option (Cursor × List Char) :=
  match cs with
  | [] => some (cur,[])
  | c :: rest =>
    if isBreak c then do
      let cur ← cur.need 2 cs
      return (cur.next c,rest)
    else some (cur,cs)

end Cursor

structure Lexeme where
  text : List Char
  cursor : Cursor
  rest : List Char
  deriving DecidableEq, Repr

def Lexeme.prepend (cs : List Char) (l : Lexeme) : Lexeme := { l with text := cs ++ l.text }

end Yaml
end CircuitNotes
