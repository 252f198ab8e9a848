import CircuitNotes.Text.Basic

/-! What two lists of lines have in common: the longest run of equal lines, and then the same on both
sides of it. In a long list, lines that occur very often do not start a run. -/
namespace CircuitNotes
namespace Diff

/-- Equal runs of lines: where they start on either side, and how many lines they have. -/
structure Run where
  old : Nat
  new : Nat
  size : Nat
  deriving DecidableEq, Repr

/-- A part of both lists. The ends do not belong to it. -/
structure Region where
  oldLow : Nat
  oldHigh : Nat
  newLow : Nat
  newHigh : Nat
  deriving DecidableEq, Repr

/-- Two lists of lines, each line by a number that equal lines share. -/
structure Sides where
  old : Array Nat
  new : Array Nat
  /-- The lines that do not start a run. -/
  common : List Nat
  deriving Repr

/-- The length from which on a list has lines that are too common. -/
def longList : Nat := 200

namespace Sides

def ofLines (old new : List Text) : Sides :=
  let number (line : Text) : Nat := (old ++ new).findIdx (· == line)
  let news := new.map number
  { old := (old.map number).toArray
    new := news.toArray
    common := if longList ≤ new.length then
        news.eraseDups.filter fun n => new.length / 100 + 1 < news.count n
      else [] }

def isEqual (s : Sides) (i j : Nat) : Bool :=
  match s.old[i]?, s.new[j]? with
  | some a, some b => a == b
  | _, _ => false

def startsRun (s : Sides) (j : Nat) : Bool :=
  match s.new[j]? with
  | some b => !s.common.contains b
  | none => false

/-- The lengths of the runs that end at line `i` of the old side, by their last line on the new side;
`before` are those for the line before. -/
def runsEndingAt (s : Sides) (r : Region) (before : List (Nat × Nat)) (i : Nat) : List (Nat × Nat) :=
  (List.range' r.newLow (r.newHigh - r.newLow)).filterMap fun j =>
    if s.isEqual i j && s.startsRun j then
      some (j,(if j = 0 then 0 else (before.lookup (j - 1)).getD 0) + 1)
    else none

/-- The better of a run and one that ends at given lines: the first among the longest. -/
def better (best : Run) (i : Nat) (ending : Nat × Nat) : Run :=
  if best.size < ending.2 then ⟨i + 1 - ending.2,ending.1 + 1 - ending.2,ending.2⟩ else best

/-- The longest run, without regard to lines that do not start one. -/
def longestRun (s : Sides) (r : Region) : Run :=
  ((List.range' r.oldLow (r.oldHigh - r.oldLow)).foldl
    (fun (best,before) i =>
      let ending := s.runsEndingAt r before i
      (ending.foldl (fun best e => better best i e) best,ending))
    ((⟨r.oldLow,r.newLow,0⟩ : Run),([] : List (Nat × Nat)))).1

def before (s : Sides) (i j : Nat) : Nat → Nat
  | 0 => 0
  | limit + 1 => if s.isEqual (i - 1) (j - 1) then s.before (i - 1) (j - 1) limit + 1 else 0

def after (s : Sides) (i j : Nat) : Nat → Nat
  | 0 => 0
  | limit + 1 => if s.isEqual i j then s.after (i + 1) (j + 1) limit + 1 else 0

def longest (s : Sides) (r : Region) : Run :=
  let m := s.longestRun r
  let b := s.before m.old m.new (min (m.old - r.oldLow) (m.new - r.newLow))
  let start : Run := ⟨m.old - b,m.new - b,m.size + b⟩
  let i := start.old + start.size
  let j := start.new + start.size
  { start with size := start.size + s.after i j (min (r.oldHigh - i) (r.newHigh - j)) }

def runs (s : Sides) (r : Region) : List Run :=
  let m := s.longest r
  if _h : 0 < m.size ∧ r.oldLow ≤ m.old ∧ m.old + m.size ≤ r.oldHigh then
    let left := if r.oldLow < m.old && r.newLow < m.new then
        s.runs ⟨r.oldLow,m.old,r.newLow,m.new⟩
      else []
    let right := if m.old + m.size < r.oldHigh && m.new + m.size < r.newHigh then
        s.runs ⟨m.old + m.size,r.oldHigh,m.new + m.size,r.newHigh⟩
      else []
    left ++ m :: right
  else []
termination_by r.oldHigh - r.oldLow
decreasing_by all_goals simp +zetaDelta only at _h ⊢; omega

def joinRuns : List Run → List Run
  | m :: n :: rest =>
    if m.old + m.size = n.old ∧ m.new + m.size = n.new then
      joinRuns (⟨m.old,m.new,m.size + n.size⟩ :: rest)
    else m :: joinRuns (n :: rest)
  | ms => ms
termination_by ms => ms.length

/-- The equal runs of the two lists, none of which touches the next. -/
def matching (s : Sides) : List Run := joinRuns (s.runs ⟨0,s.old.size,0,s.new.size⟩)

end Sides
end Diff
end CircuitNotes
