import CircuitNotes.Yaml.Cursor

/-! Quoted scalars. Between single quotes only the quote itself is written in a special way, twice;
between double quotes there are escapes. -/
namespace CircuitNotes
namespace Yaml

def escapes : List (Char × Char) :=
  [('0','\x00'),('a','\x07'),('b','\x08'),('t','\t'),('\t','\t'),('n','\n'),('v','\x0b'),
   ('f','\x0c'),('r','\r'),('e','\x1b'),(' ',' '),('"','"'),('\'','\''),('\\','\\'),
   ('N',nextLine),('_','\u00a0'),('L',lineSeparator),('P',paragraphSeparator)]

def codeLength? (c : Char) : Option Nat :=
  if c == 'x' then some 2 else if c == 'u' then some 4 else if c == 'U' then some 8 else none

inductive QuoteMode
  | text
  /-- Right after a backslash. -/
  | escape
  /-- Inside a code, with so many digits to come. -/
  | code (left : Nat) (value : Nat)
  deriving DecidableEq, Repr

/-- The character of a code; surrogates and what is too large are refused. -/
def codeChar? (n : Nat) : Option Char :=
  if (0xD800 ≤ n && n ≤ 0xDFFF) || 0x10FFFF < n then none else some (Char.ofNat n)

def doubleQuoted : QuoteMode → Gap → Cursor → List Char → Option Lexeme
  | _, _, _, [] => none
  | .text, gap, cur, c :: rest =>
    if isSpacing c then do
      let cur ← (cur.next c).need 1 rest
      doubleQuoted .text (gap.addSpacing c) cur rest
    else if isBreak c then do
      let cur ← cur.need 2 (c :: rest)
      let cur ← (cur.next c).need 1 rest
      doubleQuoted .text (gap.addBreak c) cur rest
    else do
      let cur ← if gap == .none then some cur else cur.need 4 (c :: rest)
      if gap.isBroken && cur.column == 0 && isMarker (c :: rest) then none
      else if c == '"' then some ⟨gap.fill,cur.next c,rest⟩
      else if c == '\\' then
        let cur ← if rest.head?.any isBreak then cur.need 3 (c :: rest) else some cur
        (doubleQuoted .escape .none (cur.next c) rest).map (Lexeme.prepend gap.fill)
      else
        let cur ← (cur.next c).need 2 rest
        (doubleQuoted .text .none cur rest).map (Lexeme.prepend (gap.fill ++ [c]))
  | .escape, _, cur, c :: rest =>
    if isBreak c then do
      let cur ← (cur.next c).need 1 rest
      doubleQuoted .text (.broken none []) cur rest
    else match codeLength? c, escapes.lookup c with
      | some n, _ => do
        let cur ← (cur.next c).need n rest
        doubleQuoted (.code n 0) .none cur rest
      | none, some d => do
        let cur ← (cur.next c).need 2 rest
        (doubleQuoted .text .none cur rest).map (Lexeme.prepend [d])
      | none, none => none
  | .code left value, _, cur, c :: rest =>
    match Text.hexValue? c with
    | none => none
    | some d =>
      let value := value * 16 + d.toNat
      if left ≤ 1 then match codeChar? value with
        | some d => do
          let cur ← (cur.next c).need 2 rest
          (doubleQuoted .text .none cur rest).map (Lexeme.prepend [d])
        | none => none
      else doubleQuoted (.code (left - 1) value) .none (cur.next c) rest

def singleQuoted : Gap → Cursor → List Char → Option Lexeme
  | _, _, [] => none
  | gap, cur, c :: rest =>
    if isSpacing c then do
      let cur ← (cur.next c).need 1 rest
      singleQuoted (gap.addSpacing c) cur rest
    else if isBreak c then do
      let cur ← cur.need 2 (c :: rest)
      let cur ← (cur.next c).need 1 rest
      singleQuoted (gap.addBreak c) cur rest
    else match if gap == .none then some cur else cur.need 4 (c :: rest) with
      | none => none
      | some cur =>
        if gap.isBroken && cur.column == 0 && isMarker (c :: rest) then none
        else if c == '\'' then match rest with
          | '\'' :: more => do
            let cur ← ((cur.next c).next c).need 2 more
            (singleQuoted .none cur more).map (Lexeme.prepend (gap.fill ++ [c]))
          | _ => some ⟨gap.fill,cur.next c,rest⟩
        else do
          let cur ← (cur.next c).need 2 rest
          (singleQuoted .none cur rest).map (Lexeme.prepend (gap.fill ++ [c]))

end Yaml
end CircuitNotes
