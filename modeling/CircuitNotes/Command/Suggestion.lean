import CircuitNotes.Text.Basic

/-! Words that a mistyped word may stand for. -/
namespace CircuitNotes
namespace Suggestion

/-- The next row of the table of distances: `row` are the distances of the initial parts of a word to
a text, and the answer those to the text with `b` behind it. -/
def nextRow (b : UInt8) (word : Text) (row : List Nat) : List Nat :=
  match row with
  | [] => []
  | first :: rest =>
    let cells := (word.zip (row.zip rest)).foldl
      (fun (cells,left) (c,diagonal,above) =>
        let cell := if b == c then diagonal else min (min above left) diagonal + 1
        (cells ++ [cell],cell))
      (([] : List Nat),first + 1)
    (first + 1) :: cells.1

/-- How many bytes must be inserted, deleted or replaced to get from one text to the other. -/
def distance (text word : Text) : Nat :=
  (text.foldl (fun row b => nextRow b word row) (List.range (word.length + 1))).getLast?.getD 0

/-- The capital letters beyond ASCII whose small letters take another number of bytes, with these. -/
def resized : List (Nat × Nat) :=
  [(0x130,0x69),(0x23A,0x2C65),(0x23E,0x2C66),(0x1E9E,0xDF),(0x2126,0x3C9),(0x212A,0x6B),
   (0x212B,0xE5),(0x2C62,0x26B),(0x2C64,0x27D),(0x2C6D,0x251),(0x2C6E,0x271),
   (0x2C6F,0x250),(0x2C70,0x252),(0x2C7E,0x23F),(0x2C7F,0x240),(0xA78D,0x265),
   (0xA7AA,0x266),(0xA7AB,0x25C),(0xA7AC,0x261),(0xA7AD,0x26C),(0xA7AE,0x26A),
   (0xA7B0,0x29E),(0xA7B1,0x287),(0xA7B2,0x29D),(0xA7C5,0x282)]

/-- The small letter of a capital one, as far as its distance from an ASCII word depends on it. -/
def small (c : Char) : Char := ((resized.lookup c.toNat).map Char.ofNat).getD c.toLower

def reach : Nat := 2

/-- Whether a word may be what was meant: it is close, or starts like what was typed. -/
def isClose (typed word : String) : Bool :=
  let t := Text.ofString (typed.map small)
  let w := Text.ofString (word.map small)
  distance t w ≤ reach || t.isPrefixOf w

def among (words : List String) (typed : String) : List String := words.filter (isClose typed)

end Suggestion
end CircuitNotes
