import CircuitNotes.Text.Basic

/-! Integers of 64 bits as they are written in settings, options and stored versions. Reading goes
from left to right, so a number that has already grown too large is out of range whatever follows. -/
namespace CircuitNotes
namespace Integer

inductive Fault
  | malformed
  | outOfRange
  deriving DecidableEq, Repr

def Fault.message : Fault → String
  | .malformed => "invalid syntax"
  | .outOfRange => "value out of range"

def max : Int := 9223372036854775807
def min : Int := -9223372036854775808

def digit? (b : UInt8) : Option Nat :=
  if '0'.toUInt8 ≤ b && b ≤ '9'.toUInt8 then some (b.toNat - 48)
  else if 'a'.toUInt8 ≤ b && b ≤ 'z'.toUInt8 then some (b.toNat - 97 + 10)
  else if 'A'.toUInt8 ≤ b && b ≤ 'Z'.toUInt8 then some (b.toNat - 65 + 10)
  else none

/-- Digits of a base read into `acc`, which must stay below 2^64. Underscores count for nothing
where they are allowed. -/
def readDigits (base : Nat) (underscores : Bool) : Nat → Text → Except Fault Nat
  | acc, [] => .ok acc
  | acc, b :: rest =>
    if underscores && b == '_'.toUInt8 then readDigits base underscores acc rest
    else match digit? b with
      | none => .error .malformed
      | some d =>
        if base ≤ d then .error .malformed
        else if 1 <<< 64 ≤ acc * base + d then .error .outOfRange
        else readDigits base underscores (acc * base + d) rest

def lower (b : UInt8) : UInt8 := if 'A'.toUInt8 ≤ b && b ≤ 'Z'.toUInt8 then b + 32 else b

def announcedBase : Text → Nat × Text
  | 48 :: c :: d :: rest =>
    if lower c == 'b'.toUInt8 then (2,d :: rest)
    else if lower c == 'o'.toUInt8 then (8,d :: rest)
    else if lower c == 'x'.toUInt8 then (16,d :: rest)
    else (8,c :: d :: rest)
  | 48 :: rest => (8,rest)
  | t => (10,t)

inductive Seen
  | start | digit | underscore | other
  deriving DecidableEq

/-- The position after one more byte; none when an underscore is not between digits. -/
def Seen.next (hex : Bool) (seen : Seen) (b : UInt8) : Option Seen :=
  if ('0'.toUInt8 ≤ b && b ≤ '9'.toUInt8) ||
      (hex && 'a'.toUInt8 ≤ lower b && lower b ≤ 'f'.toUInt8) then some .digit
  else if b == '_'.toUInt8 then if seen == .digit then some .underscore else none
  else if seen == .underscore then none else some .other

def dropSign : Text → Text
  | b :: rest => if b == '-'.toUInt8 || b == '+'.toUInt8 then rest else b :: rest
  | [] => []

/-- Underscores stand only between digits, or between a base announcement and a digit. -/
def underscoresOk (t : Text) : Bool :=
  let body := dropSign t
  let (first,hex,digits) : Seen × Bool × Text := match body with
    | 48 :: c :: rest =>
      let c := lower c
      if c == 'b'.toUInt8 || c == 'o'.toUInt8 || c == 'x'.toUInt8
      then (.digit,c == 'x'.toUInt8,rest) else (.start,false,body)
    | _ => (.start,false,body)
  match digits.foldlM (Seen.next hex) first with
  | none => false
  | some seen => seen != .underscore

def ofMagnitude (negative : Bool) (n : Nat) : Except Fault Int :=
  if negative then if 1 <<< 63 < n then .error .outOfRange else .ok (-(n : Int))
  else if 1 <<< 63 ≤ n then .error .outOfRange else .ok n

def isNegative : Text → Bool
  | b :: _ => b == '-'.toUInt8
  | [] => false

def readBase (base : Nat) (t : Text) : Except Fault Int := do
  let body := dropSign t
  if body.isEmpty then throw .malformed
  ofMagnitude (isNegative t) (← readDigits base false 0 body)

def readDecimal (t : Text) : Except Fault Int := readBase 10 t

/-- An integer whose base is announced by its first digits (0b, 0o, 0x, or 0 for octal), with
underscores between digits. -/
def readAnyBase (t : Text) : Except Fault Int := do
  let body := dropSign t
  if body.isEmpty then throw .malformed
  let (base,digits) := announcedBase body
  let n ← readDigits base true 0 digits
  if t.contains '_'.toUInt8 && !underscoresOk t then throw .malformed
  ofMagnitude (isNegative t) n

end Integer
end CircuitNotes
