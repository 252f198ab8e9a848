import CircuitNotes.Yaml.Cursor

/-! Block scalars: indented lines below a bar, which keeps them apart, or below a greater-than sign,
which folds them into one. -/
namespace CircuitNotes
namespace Yaml

inductive Chomping
  | strip
  | clip
  | keep
  deriving DecidableEq, Repr

def Chomping.ofChar? (c : Char) : Option Chomping :=
  if c == '+' then some .keep else if c == '-' then some .strip else none

def indentDigit? (c : Char) : Option Nat :=
  if '0' ≤ c && c ≤ '9' then some (c.toNat - 48) else none

/-- The indicators after a bar: chomping and indentation in any order; none for an indentation of
zero. -/
def blockIndicators : List Char → Option (Chomping × Nat × List Char)
  | [] => some (.clip,0,[])
  | c :: rest =>
    match Chomping.ofChar? c, indentDigit? c with
    | some chomping, _ => match rest with
      | d :: more => match indentDigit? d with
        | some 0 => none
        | some n => some (chomping,n,more)
        | none => some (chomping,0,rest)
      | [] => some (chomping,0,[])
    | none, some 0 => none
    | none, some n => match rest with
      | d :: more => match Chomping.ofChar? d with
        | some chomping => some (chomping,n,more)
        | none => some (.clip,n,rest)
      | [] => some (.clip,n,[])
    | none, none => some (.clip,0,c :: rest)

/-- The rest of a header line: spacing and perhaps a comment. The answer starts with its break. -/
def headerEnd (cs : List Char) : Option (List Char) :=
  let cs := cs.dropWhile isSpacing
  let cs := if cs.head? == some '#' then cs.dropWhile (!isBreak ·) else cs
  match cs with
  | [] => some []
  | c :: rest => if isBreak c then some (c :: rest) else none

structure Margin where
  breaks : List Char
  /-- The widest indentation among the lines. -/
  widest : Nat
  cursor : Cursor
  rest : List Char

def Margin.prepend (c : Char) (m : Margin) : Margin := { m with breaks := c :: m.breaks }

/-- Reads indentation up to `indent`, or all there is when that is zero, and empty lines. A tab must
not indent a line. -/
def margin (indent : Nat) : Nat → Cursor → List Char → Option Margin
  | widest, cur, [] => some ⟨[],max widest cur.column,cur,[]⟩
  | widest, cur, c :: rest =>
    let within := indent == 0 || cur.column < indent
    if c == ' ' && within then do
      let cur ← (cur.next c).need 1 rest
      margin indent widest cur rest
    else
      let widest := max widest cur.column
      if c == '\t' && within then none
      else if isBreak c then do
        let cur ← cur.need 2 (c :: rest)
        let cur ← (cur.next c).need 1 rest
        (margin indent widest cur rest).map (Margin.prepend (breakText c))
      else some ⟨[],widest,cur,c :: rest⟩

def marginBelow (indent : Nat) (cur : Cursor) (cs : List Char) : Option Margin := do
  let (cur,rest) ← cur.readBreak cs
  let cur ← cur.need 1 rest
  margin indent 0 cur rest

structure BlockLines where
  text : List Char
  lastBreak : List Char
  margin : Margin

/-- Reads lines that are indented by `indent`. A line that starts with spacing is not folded.
`spaced` says that of the line before; `lastBreak` is the break after it. -/
def blockLines (literal : Bool) (indent : Nat) : Nat → Bool → List Char → Margin → Option BlockLines
  | 0, _, lastBreak, m => some ⟨[],lastBreak,m⟩
  | fuel + 1, spaced, lastBreak, m =>
    match m.rest with
    | [] => some ⟨[],lastBreak,m⟩
    | c :: _ =>
      if m.cursor.column != indent then some ⟨[],lastBreak,m⟩
      else do
        let folds := !literal && !spaced && !isSpacing c && lastBreak == ['\n']
        let joint := if folds then (if m.breaks.isEmpty then [' '] else []) else lastBreak
        let line := m.rest.takeWhile (!isBreak ·)
        let (cur,rest) ← m.cursor.read line.length m.rest
        let next ← marginBelow indent cur rest
        let more ← blockLines literal indent fuel (isSpacing c) ((rest.take 1).map breakText) next
        return { more with text := joint ++ m.breaks ++ line ++ more.text }

/-- The block scalar after its bar or greater-than sign, in a block indented by `outer` (counted from
minus one at the top). -/
def blockScalar (literal : Bool) (outer : Int) (cur : Cursor) (cs : List Char) : Option Lexeme := do
  let (chomping,increment,afterIndicators) ← blockIndicators cs
  let header ← headerEnd afterIndicators
  let cur ← cur.need 1 cs
  let (cur,rest) ← cur.read (cs.length - header.length) cs
  let fixed := if increment == 0 then 0 else (max outer 0).toNat + increment
  let first ← marginBelow fixed cur rest
  let indent := if fixed == 0 then max first.widest (max (outer + 1).toNat 1) else fixed
  let lines ← blockLines literal indent cs.length false [] first
  let tail := match chomping with
    | .strip => []
    | .clip => lines.lastBreak
    | .keep => lines.lastBreak ++ lines.margin.breaks
  return ⟨lines.text ++ tail,lines.margin.cursor,lines.margin.rest⟩

end Yaml
end CircuitNotes
