import CircuitNotes.Diff.Matching

/-! The difference of two texts, as hunks of changed lines with some unchanged lines around them. -/
namespace CircuitNotes
namespace Diff

inductive Change
  | keep
  | replace
  deriving DecidableEq, Repr

structure Step where
  change : Change
  region : Region
  deriving DecidableEq, Repr

/-- The steps from line `i` and line `j` on, by way of equal runs; the lists end where `ends` says. -/
def stepsFrom (ends : Nat × Nat) (i j : Nat) : List Run → List Step
  | [] => if i < ends.1 || j < ends.2 then [⟨.replace,i,ends.1,j,ends.2⟩] else []
  | m :: rest =>
    (if i < m.old || j < m.new then [⟨.replace,i,m.old,j,m.new⟩] else []) ++
      ⟨.keep,m.old,m.old + m.size,m.new,m.new + m.size⟩ ::
      stepsFrom ends (m.old + m.size) (m.new + m.size) rest

def Region.takeLast (r : Region) (n : Nat) : Region :=
  ⟨max r.oldLow (r.oldHigh - n),r.oldHigh,max r.newLow (r.newHigh - n),r.newHigh⟩

def Region.takeFirst (r : Region) (n : Nat) : Region :=
  ⟨r.oldLow,min r.oldHigh (r.oldLow + n),r.newLow,min r.newHigh (r.newLow + n)⟩

def trimStart (context : Nat) : List Step → List Step
  | ⟨.keep,r⟩ :: rest => ⟨.keep,r.takeLast context⟩ :: rest
  | steps => steps

def trimEnd (context : Nat) (steps : List Step) : List Step :=
  match steps.getLast? with
  | some ⟨.keep,r⟩ => steps.dropLast ++ [⟨.keep,r.takeFirst context⟩]
  | _ => steps

/-- The steps in hunks: a hunk ends where more than twice `context` lines are unchanged. `hunk` is the
one being built. -/
def hunksFrom (context : Nat) (hunk : List Step) : List Step → List (List Step)
  | [] =>
    match hunk with
    | [] => []
    | [⟨.keep,_⟩] => []
    | _ => [hunk]
  | step :: rest =>
    if step.change = .keep ∧ 2 * context < step.region.oldHigh - step.region.oldLow then
      (hunk ++ [⟨.keep,step.region.takeFirst context⟩]) ::
        hunksFrom context [⟨.keep,step.region.takeLast context⟩] rest
    else hunksFrom context (hunk ++ [step]) rest

/-- Numbers of lines, from one on; an empty range is named by the line before it. -/
def rangeText (low high : Nat) : Text :=
  if high - low = 1 then Text.ofNat (low + 1)
  else Text.ofNat (if high = low then low else low + 1) ++ "," ++ Text.ofNat (high - low)

def marked (mark : String) (lines : List Text) (low high : Nat) : Text :=
  ((lines.take high).drop low).flatMap (mark ++ ·)

def stepText (old new : List Text) : Step → Text
  | ⟨.keep,r⟩ => marked " " old r.oldLow r.oldHigh
  | ⟨.replace,r⟩ => marked "-" old r.oldLow r.oldHigh ++ marked "+" new r.newLow r.newHigh

def hunkText (old new : List Text) (hunk : List Step) : Text :=
  match hunk.head?, hunk.getLast? with
  | some first, some last =>
    "@@ -" ++ rangeText first.region.oldLow last.region.oldHigh ++ " +" ++
      rangeText first.region.newLow last.region.newHigh ++ " @@\n" ++ hunk.flatMap (stepText old new)
  | _, _ => []

/-- The lines of a text, each with a line end; the text after the last line end counts as a line, even
if it is empty. -/
def linesOf (t : Text) : List Text := (t.splitOn 10).map (· ++ [10])

def unified (context : Nat) (oldName newName : Text) (old new : Text) : Text :=
  let oldLines := linesOf old
  let newLines := linesOf new
  let runs := (Sides.ofLines oldLines newLines).matching
  let steps := trimEnd context (trimStart context
    (stepsFrom (oldLines.length,newLines.length) 0 0 runs))
  match hunksFrom context [] steps with
  | [] => []
  | hunks =>
    "--- " ++ oldName ++ "\n+++ " ++ newName ++ "\n" ++ hunks.flatMap (hunkText oldLines newLines)

end Diff
end CircuitNotes
