import CircuitNotes.Text.Basic

/-! Instants, and how they are written: in the form `2024-03-01T12:00:00.5Z` where they are stored
or exchanged, and to the second in listings. Dates are those of the Gregorian calendar, extended to
all years. -/
namespace CircuitNotes

/-- Seconds since the start of 1970, and nanoseconds within the second. -/
structure Instant where
  seconds : Int
  nanos : Nat := 0
  deriving DecidableEq, Repr

structure Date where
  year : Int
  month : Nat
  day : Nat
  deriving DecidableEq, Repr

namespace Date

/-- The day that lies `days` after the first of January 1970. Years are counted from March, so that
the leap day is the last of its year. -/
def ofDays (days : Int) : Date :=
  let z := days + 719468
  let era := z.fdiv 146097
  let dayOfEra := (z - era * 146097).toNat
  let yearOfEra := (dayOfEra - dayOfEra / 1460 + dayOfEra / 36524 - dayOfEra / 146096) / 365
  let dayOfYear := dayOfEra - (365 * yearOfEra + yearOfEra / 4 - yearOfEra / 100)
  let shifted := (5 * dayOfYear + 2) / 153
  let month := if shifted < 10 then shifted + 3 else shifted - 9
  { year := yearOfEra + era * 400 + (if month ≤ 2 then 1 else 0)
    month := month
    day := dayOfYear - (153 * shifted + 2) / 5 + 1 }

def toDays (d : Date) : Int :=
  let year := if d.month ≤ 2 then d.year - 1 else d.year
  let era := year.fdiv 400
  let yearOfEra := (year - era * 400).toNat
  let shifted := if d.month ≤ 2 then d.month + 9 else d.month - 3
  let dayOfYear := (153 * shifted + 2) / 5 + d.day - 1
  let dayOfEra := yearOfEra * 365 + yearOfEra / 4 - yearOfEra / 100 + dayOfYear
  era * 146097 + dayOfEra - 719468

end Date

namespace Instant

/-- The start of the year 1, which stands for a time that was never set. -/
def unset : Instant := ⟨-62135596800,0⟩

instance : Inhabited Instant := ⟨unset⟩

def padded (width : Nat) (n : Nat) : String :=
  let digits := Nat.repr n
  String.ofList (List.replicate (width - digits.length) '0') ++ digits

def dateText (t : Instant) : String :=
  let d := Date.ofDays (t.seconds.fdiv 86400)
  (if d.year < 0 then "-" else "") ++ padded 4 d.year.natAbs ++ "-" ++ padded 2 d.month ++ "-" ++
    padded 2 d.day

def clockText (t : Instant) : String :=
  let s := (t.seconds.fmod 86400).toNat
  padded 2 (s / 3600) ++ ":" ++ padded 2 (s / 60 % 60) ++ ":" ++ padded 2 (s % 60)

/-- The fraction of the second without zeros at its end, after a point; nothing for a whole second. -/
def fractionText (t : Instant) : String :=
  if t.nanos == 0 then ""
  else
    let digits := (padded 9 t.nanos).toList.reverse.dropWhile (· == '0')
    String.ofList ('.' :: digits.reverse)

def iso (t : Instant) : String := dateText t ++ "T" ++ clockText t ++ fractionText t ++ "Z"

def listing (t : Instant) : String := dateText t ++ " " ++ clockText t

def digits? (cs : List Char) : Option Nat :=
  if cs.all Char.isDigit then some (cs.foldl (fun n c => n * 10 + (c.toNat - 48)) 0) else none

/-- The seconds that a zone is ahead: `Z`, or a sign, hours and minutes. -/
def zone? : List Char → Option Int
  | ['Z'] => some 0
  | [sign,h,h₁,':',m,m₁] => do
    let hours ← digits? [h,h₁]
    let minutes ← digits? [m,m₁]
    let ahead : Int := hours * 3600 + minutes * 60
    if sign == '+' then some ahead else if sign == '-' then some (-ahead) else none
  | _ => none

/-- The nanoseconds of a fraction, of which the first nine digits count, and what follows it. -/
def fraction : List Char → Nat × List Char
  | '.' :: rest =>
    let ds := rest.takeWhile Char.isDigit
    ((digits? ((ds ++ List.replicate 9 '0').take 9)).getD 0,rest.dropWhile Char.isDigit)
  | cs => (0,cs)

/-- The instant that a text in the form of `iso` stands for, in any zone. -/
def ofIso? (s : String) : Option Instant :=
  match s.toList with
  | y₁ :: y₂ :: y₃ :: y₄ :: '-' :: m₁ :: m₂ :: '-' :: d₁ :: d₂ :: 'T' ::
      h₁ :: h₂ :: ':' :: n₁ :: n₂ :: ':' :: s₁ :: s₂ :: rest => do
    let year ← digits? [y₁,y₂,y₃,y₄]
    let month ← digits? [m₁,m₂]
    let day ← digits? [d₁,d₂]
    let hour ← digits? [h₁,h₂]
    let minute ← digits? [n₁,n₂]
    let second ← digits? [s₁,s₂]
    let (nanos,rest) := fraction rest
    let ahead ← zone? rest
    let days := Date.toDays ⟨year,month,day⟩
    return ⟨days * 86400 + (hour * 3600 + minute * 60 + second : Nat) - ahead,nanos⟩
  | _ => none

end Instant
end CircuitNotes
