import CircuitNotes.Number.Binary64
import CircuitNotes.Number.Integer

/-! Numerals: decimal and hexadecimal fractions with an exponent, and underscores between digits. A
hexadecimal numeral must have an exponent, which is a power of two. -/
namespace CircuitNotes

/-- The number `digits * base ^ exponent`, negated if `negative`; the base is two or ten. -/
structure Numeral where
  negative : Bool
  binary : Bool
  digits : Nat
  exponent : Int
  deriving DecidableEq, Repr

namespace Numeral

open Integer (digit? lower dropSign isNegative underscoresOk)

def isDigit (base : Nat) (b : UInt8) : Bool :=
  match digit? b with
  | some d => d < base
  | none => false

def isDigitOrUnderscore (base : Nat) (b : UInt8) : Bool := isDigit base b || b == '_'.toUInt8

def digitsOf (base : Nat) (t : Text) : Text := t.filter (isDigit base)

def valueOf (base : Nat) (digits : Text) : Nat :=
  digits.foldl (fun acc b => acc * base + (digit? b).getD 0) 0

/-- An exponent is read exactly up to five digits; what is larger has no other effect. -/
def exponentValue (digits : Text) : Nat :=
  digits.foldl (fun acc b => if acc < 10000 then acc * 10 + (digit? b).getD 0 else acc) 0

/-- The exponent that begins with `mark`, and the rest of the text; zero when there is none. -/
def readExponent? (mark : UInt8) : Text → Option (Int × Bool × Text)
  | [] => some (0,false,[])
  | b :: rest =>
    if lower b == mark then
      let body := dropSign rest
      match body with
      | [] => none
      | d :: _ =>
        if isDigit 10 d then
          let (run,rest') := body.span (isDigitOrUnderscore 10)
          let e : Int := exponentValue (digitsOf 10 run)
          some (if isNegative rest then -e else e,true,rest')
        else none
    else some (0,false,b :: rest)

def readFraction (base : Nat) (t : Text) : Text × Text × Text :=
  let (whole,rest) := t.span (isDigitOrUnderscore base)
  match rest with
  | 46 :: rest =>
    let (frac,rest) := rest.span (isDigitOrUnderscore base)
    (digitsOf base whole,digitsOf base frac,rest)
  | _ => (digitsOf base whole,[],rest)

def hexBody? : Text → Option Text
  | 48 :: x :: d :: rest => if lower x == 'x'.toUInt8 then some (d :: rest) else none
  | _ => none

def read? (t : Text) : Option Numeral :=
  let body := dropSign t
  let hex := hexBody? body
  let base := if hex.isSome then 16 else 10
  let (whole,frac,rest) := readFraction base (hex.getD body)
  if whole.isEmpty && frac.isEmpty then none
  else
    match readExponent? (if hex.isSome then 'p'.toUInt8 else 'e'.toUInt8) rest with
    | some (e,written,[]) =>
      if hex.isSome && !written then none
      else if t.contains '_'.toUInt8 && !underscoresOk t then none
      else
        let places : Int := frac.length * (if hex.isSome then 4 else 1)
        some ⟨isNegative t,hex.isSome,valueOf base (whole ++ frac),e - places⟩
    | _ => none

def fraction (n : Numeral) : Nat × Nat :=
  let base := if n.binary then 2 else 10
  if 0 ≤ n.exponent then (n.digits * Nat.pow base n.exponent.toNat,1)
  else (n.digits,Nat.pow base (-n.exponent).toNat)

/-- The nearest binary64 number; none when the numeral is too large for one. -/
def toBinary64? (n : Numeral) : Option Binary64 :=
  Binary64.round n.negative n.fraction.1 n.fraction.2

end Numeral
end CircuitNotes
