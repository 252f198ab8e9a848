import CircuitNotes.Yaml.Character

/-! The characters of a stream as they arrive. A stream is UTF-8, or UTF-16 behind a byte order mark.
It arrives in portions of so many bytes, and a fault in it shows only when the portion with the fault
is needed. -/
namespace CircuitNotes
namespace Yaml

inductive Ending
  | clean
  /-- Within a character. -/
  | cut
  /-- With `width` bytes that are no character of a stream. -/
  | faulty (width : Nat)
  deriving DecidableEq, Repr

/-- Characters, each with the number of its bytes, and how they end. -/
structure Decoded where
  chars : List (Char × Nat)
  ending : Ending
  deriving DecidableEq, Repr

def Decoded.push (c : Char) (width : Nat) (d : Decoded) : Decoded :=
  { d with chars := (c,width) :: d.chars }

def Decoded.pushCode (code width : Nat) (rest : Decoded) : Decoded :=
  let c := Char.ofNat code
  if isAllowed c && c.toNat == code then rest.push c width else ⟨[],.faulty width⟩

/-- What a leading byte announces: how many bytes follow it, and the first part of the code. -/
def announced? (b : UInt8) : Option (Nat × Nat) :=
  if b < 0x80 then some (0,b.toNat)
  else if b < 0xC0 then none
  else if b < 0xE0 then some (1,b.toNat - 0xC0)
  else if b < 0xF0 then some (2,b.toNat - 0xE0)
  else if b < 0xF8 then some (3,b.toNat - 0xF0)
  else none

def isFollowing (b : UInt8) : Bool := 0x80 ≤ b && b < 0xC0

def leastCode (width : Nat) : Nat :=
  if width ≤ 1 then 0 else if width == 2 then 0x80 else if width == 3 then 0x800 else 0x10000

/-- The characters of UTF-8. Inside a character of `width` bytes, `left` are still to come. -/
def utf8 : Nat → Nat → Nat → Text → Decoded
  | 0, _, _, [] => ⟨[],.clean⟩
  | _ + 1, _, _, [] => ⟨[],.cut⟩
  | 0, _, _, b :: rest =>
    match announced? b with
    | none => ⟨[],.faulty 1⟩
    | some (0,code) => (utf8 0 0 0 rest).pushCode code 1
    | some (left,code) => utf8 left code (left + 1) rest
  | left + 1, code, width, b :: rest =>
    if isFollowing b then
      let code := code * 64 + b.toNat % 64
      if left == 0 then
        if leastCode width ≤ code then (utf8 0 0 0 rest).pushCode code width
        else ⟨[],.faulty width⟩
      else utf8 left code width rest
    else ⟨[],if left ≤ rest.length then .faulty width else .cut⟩

/-- The units of UTF-16, and whether a single byte is left. -/
def units (little : Bool) : Text → List Nat × Bool
  | [] => ([],false)
  | [_] => ([],true)
  | a :: b :: rest =>
    let (us,odd) := units little rest
    ((if little then b.toNat * 256 + a.toNat else a.toNat * 256 + b.toNat) :: us,odd)

def isHighSurrogate (u : Nat) : Bool := 0xD800 ≤ u && u < 0xDC00
def isLowSurrogate (u : Nat) : Bool := 0xDC00 ≤ u && u < 0xE000

def utf16 (odd : Bool) : List Nat → Decoded
  | [] => ⟨[],if odd then .cut else .clean⟩
  | u :: rest =>
    if isLowSurrogate u then ⟨[],.faulty 2⟩
    else if isHighSurrogate u then
      match rest with
      | [] => ⟨[],.cut⟩
      | v :: more =>
        if isLowSurrogate v then
          (utf16 odd more).pushCode (0x10000 + (u - 0xD800) * 0x400 + (v - 0xDC00)) 4
        else ⟨[],.faulty 4⟩
    else (utf16 odd rest).pushCode u 2

def portionSize : Nat := 512

/-- How many characters each portion holds. A character that does not fit is in the next one; `room`
and `count` are what is left of the current one and what it holds so far. -/
def portions (room count : Nat) : List (Char × Nat) → Ending → List Nat
  | [], .clean => [count]
  | [], .cut => [count,0]
  | [], .faulty width => if width ≤ room then [count] else [count,0]
  | (_,width) :: rest, ending =>
    if width ≤ room then portions (room - width) (count + 1) rest ending
    else count :: portions (portionSize - width) 1 rest ending

/-- A stream: its characters up to the first fault, and how many of them each portion holds. In a
`spoiled` stream the last portion has the fault. -/
structure Stream where
  chars : List Char
  portions : List Nat
  spoiled : Bool
  deriving DecidableEq, Repr

namespace Stream

def ofDecoded (mark : Nat) (d : Decoded) : Stream where
  chars := joinBreaks (d.chars.map Prod.fst)
  portions := Yaml.portions (portionSize - mark) 0 d.chars d.ending
  spoiled := d.ending != .clean

def ofUtf16 (little : Bool) (t : Text) : Stream :=
  let (us,odd) := units little t
  ofDecoded 2 (utf16 odd us)

def ofText (t : Text) : Stream :=
  match t with
  | 0xFF :: 0xFE :: rest => ofUtf16 true rest
  | 0xFE :: 0xFF :: rest => ofUtf16 false rest
  | 0xEF :: 0xBB :: 0xBF :: rest => ofDecoded 3 (utf8 0 0 0 rest)
  | _ => ofDecoded 0 (utf8 0 0 0 t)

end Stream
end Yaml
end CircuitNotes
