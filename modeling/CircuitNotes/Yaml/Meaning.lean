import CircuitNotes.Number.Numeral
import CircuitNotes.Time.Instant

/-! What a scalar without quotes means: nothing, a truth value, a number, a time or just its text. -/
namespace CircuitNotes
namespace Yaml

inductive Real
  | finite (x : Binary64)
  | infinite (negative : Bool)
  | undefined
  deriving DecidableEq, Repr

inductive Meaning
  | null
  | bool (b : Bool)
  | int (i : Int)
  | float (x : Real)
  | timestamp
  | text
  deriving DecidableEq, Repr

namespace Meaning

def tag : Meaning → String
  | null => "!!null"
  | bool _ => "!!bool"
  | int _ => "!!int"
  | float _ => "!!float"
  | timestamp => "!!timestamp"
  | text => "!!str"

def ofWord? (s : String) : Option Meaning :=
  if s ∈ ["","~","null","Null","NULL"] then some null
  else if s ∈ ["true","True","TRUE"] then some (bool true)
  else if s ∈ ["false","False","FALSE"] then some (bool false)
  else if s ∈ [".nan",".NaN",".NAN"] then some (float .undefined)
  else if s ∈ [".inf",".Inf",".INF","+.inf","+.Inf","+.INF"] then some (float (.infinite false))
  else if s ∈ ["-.inf","-.Inf","-.INF"] then some (float (.infinite true))
  else none

end Meaning

/-! ### Times -/

def shortNumber? : List Char → Option (Nat × List Char)
  | c :: d :: rest =>
    if c.isDigit then
      if d.isDigit then some ((c.toNat - 48) * 10 + (d.toNat - 48),rest)
      else some (c.toNat - 48,d :: rest)
    else none
  | [c] => if c.isDigit then some (c.toNat - 48,[]) else none
  | [] => none

def isLeapYear (year : Nat) : Bool := year % 4 == 0 && (year % 100 != 0 || year % 400 == 0)

def daysInMonth (year month : Nat) : Nat :=
  if month == 2 then (if isLeapYear year then 29 else 28)
  else if month ∈ [4,6,9,11] then 30 else 31

def afterDate? (cs : List Char) : Option (List Char) := do
  let year ← Instant.digits? (cs.take 4)
  if cs.length < 5 then none
  else match cs.drop 4 with
    | '-' :: rest => do
      let (month,rest) ← shortNumber? rest
      match rest with
      | '-' :: rest => do
        let (day,rest) ← shortNumber? rest
        if 1 ≤ month && month ≤ 12 && 1 ≤ day && day ≤ daysInMonth year month then some rest else none
      | _ => none
    | _ => none

def afterClock? (cs : List Char) : Option (List Char) := do
  let (hour,rest) ← shortNumber? cs
  match rest with
  | ':' :: rest => do
    let (minute,rest) ← shortNumber? rest
    match rest with
    | ':' :: rest => do
      let (second,rest) ← shortNumber? rest
      if 24 ≤ hour || 60 ≤ minute || 60 ≤ second then none
      else match rest with
        | p :: d :: more =>
          if (p == '.' || p == ',') && d.isDigit then some (more.dropWhile Char.isDigit) else some rest
        | _ => some rest
    | _ => none
  | _ => none

def isZone : List Char → Bool
  | ['Z'] => true
  | [sign,h,h₁,':',m,m₁] =>
    (sign == '+' || sign == '-') &&
      match Instant.digits? [h,h₁], Instant.digits? [m,m₁] with
      | some hours, some minutes => hours ≤ 24 && minutes ≤ 60
      | _, _ => false
  | _ => false

/-- Whether a text is a date, or a date with a time of day in a zone or, after a space, without
one. -/
def isTimestamp (s : String) : Bool :=
  match afterDate? s.toList with
  | none => false
  | some [] => true
  | some (c :: rest) =>
    if c == 'T' || c == 't' then match afterClock? rest with
      | some zone => isZone zone
      | none => false
    else c == ' ' && afterClock? (rest.dropWhile (· == ' ')) == some []

/-! ### Numbers -/

def isDecimal (cs : List Char) : Bool :=
  let cs := match cs with
    | c :: rest => if c == '+' || c == '-' then rest else c :: rest
    | [] => []
  let whole := cs.takeWhile Char.isDigit
  let rest := cs.dropWhile Char.isDigit
  let (places,rest) := match rest with
    | '.' :: rest => (rest.takeWhile Char.isDigit,rest.dropWhile Char.isDigit)
    | _ => ([],rest)
  !(whole.isEmpty && places.isEmpty) &&
    match rest with
    | [] => true
    | e :: rest =>
      let digits := match rest with
        | c :: more => if c == '+' || c == '-' then more else c :: more
        | [] => []
      (e == 'e' || e == 'E') && !digits.isEmpty && digits.all Char.isDigit

/-- A number of 64 bits without a sign, in the base that it announces. -/
def unsigned? (t : Text) : Option Nat :=
  let (base,digits) := Integer.announcedBase t
  if t.isEmpty then none else (Integer.readDigits base false 0 digits).toOption

/-- A number of 64 bits whose base stands in front of its sign, or behind a minus sign. -/
def prefixed? (cs : List Char) : Option Int :=
  let inBase (base : Nat) (digits : List Char) : Option Int :=
    (Integer.readBase base (Text.ofString (String.ofList digits))).toOption
  match cs with
  | '0' :: 'b' :: rest => inBase 2 rest
  | '-' :: '0' :: 'b' :: rest => inBase 2 ('-' :: rest)
  | '0' :: 'o' :: rest => inBase 8 rest
  | '-' :: '0' :: 'o' :: rest => inBase 8 ('-' :: rest)
  | _ => none

def float? (t : Text) : Option Meaning :=
  ((Numeral.read? t).bind Numeral.toBinary64?).map fun x => .float (.finite x)

def number? (s : String) : Option Meaning :=
  let cs := s.toList.filter (· != '_')
  let t := Text.ofString (String.ofList cs)
  match Integer.readAnyBase t, unsigned? t with
  | .ok i, _ => some (.int i)
  | .error _, some n => some (.int n)
  | .error _, none =>
    match if isDecimal cs then float? t else none with
    | some x => some x
    | none => (prefixed? cs).map .int

/-- The meaning of a scalar without quotes. A text is taken for a time only if `times` says so. -/
def meaning (times : Bool) (s : String) : Meaning :=
  match Meaning.ofWord? s, s.toList.head? with
  | some m, _ => m
  | none, some c =>
    if c == '.' then (float? s).getD .text
    else if c.isDigit || c == '+' || c == '-' then
      if times && isTimestamp s then .timestamp else (number? s).getD .text
    else .text
  | none, none => .text

/-- The tags that say more than that a scalar is a text. -/
def meaningfulTags : List String := ["","!!bool","!!int","!!float","!!null","!!timestamp"]

/-- The meaning of a scalar with a tag; none if the tag does not allow it. With a tag of another kind
it is a text. -/
def taggedMeaning? (tag s : String) : Option Meaning :=
  if tag ∉ meaningfulTags then some .text
  else
    let m := meaning (tag == "" || tag == "!!timestamp") s
    if tag == "" || tag == m.tag then some m
    else match m with
      | .int i =>
        if tag == "!!float" && i ≤ Integer.max then
          (Binary64.round (i < 0) i.natAbs 1).map fun x => .float (.finite x)
        else none
      | _ => none

end Yaml
end CircuitNotes
