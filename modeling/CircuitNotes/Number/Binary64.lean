/-! Numbers of the format binary64: a sign, a significand below 2^53 and an exponent. `round` takes
any fraction to the nearest of them, a half to the even neighbour, by exact arithmetic. -/
namespace CircuitNotes

/-- The finite number `significand * 2 ^ exponent`, negated if `negative`. -/
structure Binary64 where
  negative : Bool
  significand : Nat
  exponent : Int
  deriving DecidableEq, Repr

namespace Binary64

def minExponent : Int := -1074
def maxExponent : Int := 971

/-- The exponent of the greatest power of two that is not above `num / den`. -/
def magnitude (num den : Nat) : Int :=
  let guess : Int := num.log2 - den.log2
  let fits := if 0 ≤ guess then den <<< guess.toNat ≤ num else den ≤ num <<< (-guess).toNat
  if fits then guess else guess - 1

/-- The quotient rounded to the nearest integer, a half to the even one. -/
def roundDiv (num den : Nat) : Nat :=
  let q := num / den
  let r := num % den
  if 2 * r < den then q else if den < 2 * r then q + 1 else q + q % 2

def scaled (num den : Nat) (exponent : Int) : Nat :=
  if 0 ≤ exponent then roundDiv num (den <<< exponent.toNat)
  else roundDiv (num <<< (-exponent).toNat) den

/-- The number nearest to `num / den`; none when it would be infinite. -/
def round (negative : Bool) (num den : Nat) : Option Binary64 :=
  if num = 0 then some ⟨negative,0,minExponent⟩
  else
    let exponent := Max.max (magnitude num den - 52) minExponent
    let m := scaled num den exponent
    let (m,exponent) := if m = 1 <<< 53 then (1 <<< 52,exponent + 1) else (m,exponent)
    if maxExponent < exponent then none else some ⟨negative,m,exponent⟩

def bits (x : Binary64) : Nat :=
  (if x.negative then 1 <<< 63 else 0) +
    (if x.significand < 1 <<< 52 then x.significand
     else ((x.exponent + 1075).toNat <<< 52) + (x.significand - 1 <<< 52))

/-- The number as a natural number, if it is one; a negative zero is zero. -/
def toNat? (x : Binary64) : Option Nat :=
  if x.negative && x.significand != 0 then none
  else if 0 ≤ x.exponent then some (x.significand <<< x.exponent.toNat)
  else
    let unit := 1 <<< (-x.exponent).toNat
    if x.significand % unit = 0 then some (x.significand / unit) else none

end Binary64
end CircuitNotes
