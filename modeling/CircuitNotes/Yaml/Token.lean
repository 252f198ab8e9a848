import CircuitNotes.Yaml.Block
import CircuitNotes.Yaml.Plain
import CircuitNotes.Yaml.Property
import CircuitNotes.Yaml.Quoted

/-! The tokens of a YAML stream, read as they are asked for. Indentation shows in them as the starts and
ends of blocks. A key is recognised only when the colon after it is found, so the reader remembers
where a key may have started, and puts the token that announces it in that place afterwards. -/
namespace CircuitNotes
namespace Yaml

inductive TokenKind
  | streamEnd
  | directive (d : Directive)
  | documentStart
  | documentEnd
  | sequenceStart
  | mappingStart
  | blockEnd
  | openBracket
  | closeBracket
  | openBrace
  | closeBrace
  | dash
  | comma
  | key
  | value
  | reference (name : String)
  | anchor (name : String)
  | tag (t : Tag)
  | scalar (text : String) (plain : Bool)
  deriving DecidableEq, Repr

structure Token where
  kind : TokenKind
  line : Nat
  deriving DecidableEq, Repr

/-- A place where a key may have started. Tokens are numbered from zero, and `number` is that of the
token there. Where the indentation leaves no other choice a key is required. -/
structure KeyStart where
  possible : Bool := false
  required : Bool := false
  number : Nat := 0
  pos : Pos := {}
  deriving DecidableEq, Repr

structure Lexer where
  cursor : Cursor
  rest : List Char
  /-- The number of brackets and braces that are open. -/
  flow : Nat := 0
  /-- The indentation of the innermost block, and those of the blocks around it. -/
  indent : Int := -1
  indents : List Int := []
  /-- Whether a key may start here. -/
  keyAllowed : Bool := true
  /-- The latest place for a key, at each level of brackets and braces, the innermost first. -/
  keys : List KeyStart := [{}]
  /-- The numbers of the tokens that are held back until it is known whether a key starts there. -/
  heldBack : List Nat := []
  /-- How many tokens were taken, and those that wait. -/
  taken : Nat := 0
  tokens : List Token := []

namespace Lexer

def ofStream (s : Stream) : Lexer where
  cursor := { window := { portions := s.portions,spoiled := s.spoiled } }
  rest := s.chars

/-- The longest key that needs no mark of its own, in characters. -/
def keyLimit : Nat := 1024

/-- How many brackets and braces, and how many blocks, may be open. -/
def depthLimit : Nat := 10000

def commentLimit : Nat := 512

/-! ### Going on in the stream -/

def need (l : Lexer) (k : Nat) : Option Lexer := do
  return { l with cursor := ← l.cursor.need k l.rest }

def skip (l : Lexer) (n : Nat) : Lexer :=
  { l with cursor := l.cursor.along n,rest := l.rest.drop n }

def readTo (l : Lexer) (rest : List Char) : Option Lexer := do
  let (cur,rest) ← l.cursor.read (l.rest.length - rest.length) l.rest
  return { l with cursor := cur,rest := rest }

/-! ### The queue of tokens -/

def nextNumber (l : Lexer) : Nat := l.taken + l.tokens.length

def push (l : Lexer) (kind : TokenKind) (line : Nat) : Lexer :=
  { l with tokens := l.tokens ++ [⟨kind,line⟩] }

/-- Puts a token before the one of a number; behind all others if that one has been taken. -/
def insert (l : Lexer) (number : Nat) (kind : TokenKind) (line : Nat) : Lexer :=
  if number < l.taken then l.push kind line
  else
    let i := number - l.taken
    { l with tokens := l.tokens.take i ++ ⟨kind,line⟩ :: l.tokens.drop i }

def release (l : Lexer) (number : Nat) : Lexer :=
  { l with heldBack := l.heldBack.filter (· != number) }

def dropKey (l : Lexer) : Option Lexer :=
  match l.keys with
  | k :: outer =>
    if !k.possible then some l
    else if k.required then none
    else some ({ l with keys := { k with possible := false } :: outer }.release k.number)
  | [] => some l

def noteKey (l : Lexer) : Option Lexer :=
  if l.keyAllowed then do
    let l ← l.dropKey
    let required := l.flow == 0 && l.indent == l.cursor.column
    let start : KeyStart := ⟨true,required,l.nextNumber,l.cursor.toPos⟩
    return { l with keys := start :: l.keys.drop 1,heldBack := l.nextNumber :: l.heldBack }
  else some l

/-- Opens a block at a column that is further in than the innermost one. -/
def openBlock (l : Lexer) (column number : Nat) (kind : TokenKind) (line : Nat) : Option Lexer :=
  if l.flow == 0 && l.indent < column then
    if depthLimit ≤ l.indents.length then none
    else some { l.insert number kind line with indent := column,indents := l.indent :: l.indents }
  else some l

def closeBlocks (column : Int) (line : Nat) : Int → List Int → List Token × Int × List Int
  | indent, [] => ([],indent,[])
  | indent, outer :: more =>
    if column < indent then
      let (ends,indent,indents) := closeBlocks column line outer more
      (⟨.blockEnd,line⟩ :: ends,indent,indents)
    else ([],indent,outer :: more)

def dedent (l : Lexer) (column : Int) : Lexer :=
  if l.flow == 0 then
    let (ends,indent,indents) := closeBlocks column l.cursor.line l.indent l.indents
    { l with tokens := l.tokens ++ ends,indent := indent,indents := indents }
  else l

/-! ### Between tokens -/

/-- Looks for a comment behind spacing and, if `lines` allows, breaks, from `offset` characters behind
the cursor on. `here` is the stream at the cursor. A fault met on the way is left for later. -/
def commentAhead (lines : Bool) (here : List Char) : Nat → Cursor → List Char → Cursor × Bool
  | offset, cur, [] =>
    if commentLimit ≤ offset then (cur,false) else ((cur.reach (offset + 1) here).1,false)
  | offset, cur, c :: rest =>
    if commentLimit ≤ offset then (cur,false)
    else
      let (cur,sound) := cur.reach (offset + 1) here
      if !sound then (cur,false)
      else if isSpacing c || (lines && c == '\n') then commentAhead lines here (offset + 1) cur rest
      else if lines && isBreak c then
        if commentLimit ≤ offset + 1 then (cur,false)
        else
          let (cur,sound) := cur.reach (offset + 2) here
          if sound && c == '\r' then commentAhead lines here (offset + 2) cur rest else (cur,false)
      else (cur,c == '#')

def bridgeAhead (cur : Cursor) (cs : List Char) : Cursor × Bool :=
  match cs with
  | '\n' :: rest => commentAhead true cs 1 cur rest
  | '\r' :: rest =>
    match cur.reach 2 cs with
    | (cur,true) => commentAhead true cs 2 cur rest
    | (cur,false) => (cur,false)
  | _ => ((cur.reach 2 cs).1,false)

inductive Between
  /-- Where it begins, and where each line begins. -/
  | start
  | spacing
  | comment
  /-- Lines between a comment and the next one. -/
  | bridge

inductive Pass
  | stop (cur : Cursor)
  | go (next : Between) (allowed : Bool) (cur : Cursor)

/-- Spacing, a break or the start of a comment. Outside brackets and braces a key may start on a new
line; where one may start, a tab is not spacing. -/
def passSpacing (flow allowed : Bool) (cur : Cursor) (c : Char) (rest : List Char) : Option Pass :=
  if c == ' ' || (c == '\t' && (flow || !allowed)) then do
    return .go .spacing allowed (← (cur.next c).need 1 rest)
  else if c == '#' then do
    return .go .comment allowed (← (cur.next c).need 1 rest)
  else if isBreak c then do
    let cur ← cur.need 2 (c :: rest)
    return .go .start (allowed || !flow) (cur.next c)
  else some (.stop cur)

def passMarked (flow allowed : Bool) (cur : Cursor) (c : Char) (rest : List Char) : Option Pass :=
  if c == '\r' then do
    let cur ← (cur.along 1).need 2 ('\n' :: rest)
    return .go .start (allowed || !flow) (cur.next '\n')
  else do
    return .go .spacing allowed (← (cur.along 1).need 1 rest)

def pass (flow : Bool) (between : Between) (allowed : Bool) (cur : Cursor) (c : Char)
    (rest : List Char) : Option Pass :=
  match between with
  | .start => do
    let cur ← cur.need 1 (c :: rest)
    if cur.column == 0 && cur.window.marked then passMarked flow allowed cur c rest
    else passSpacing flow allowed cur c rest
  | .spacing => passSpacing flow allowed cur c rest
  | .comment =>
    if isBreak c then do
      let (cur,found) := bridgeAhead cur (c :: rest)
      let cur ← cur.need 2 (c :: rest)
      return .go (if found then .bridge else .start) (allowed || (!found && !flow)) (cur.next c)
    else do
      return .go .comment allowed (← (cur.next c).need 1 rest)
  | .bridge => do
    let cur ← cur.need (if isBreak c then 2 else 1) (c :: rest)
    let cur := cur.next c
    if c == '#' then return .go .comment allowed (← cur.need 1 rest)
    else return .go .bridge allowed cur

def passOver (flow : Bool) : Between → Bool → Cursor → List Char → Option (Bool × Cursor × List Char)
  | between, allowed, cur, [] => do
    let cur ← cur.need 1 []
    let cur := match between with
      | .comment => (bridgeAhead cur []).1
      | _ => cur
    return (allowed,cur,[])
  | between, allowed, cur, c :: rest => do
    match ← pass flow between allowed cur c rest with
    | .stop cur => return (allowed,cur,c :: rest)
    | .go between allowed cur => passOver flow between allowed cur rest

def toToken (l : Lexer) : Option Lexer := do
  let (allowed,cur,rest) ← passOver (0 < l.flow) .start l.keyAllowed l.cursor l.rest
  return { l with keyAllowed := allowed,cursor := cur,rest := rest }

def skipLineComment (l : Lexer) : Option Lexer :=
  let (cur,found) := commentAhead false l.rest 0 l.cursor l.rest
  let l := { l with cursor := cur }
  if found then l.readTo (l.rest.dropWhile (!isBreak ·)) else some l

/-! ### Single tokens -/

def indicator (l : Lexer) (kind : TokenKind) : Lexer := (l.push kind l.cursor.line).skip 1

def readEnd (l : Lexer) : Option Lexer := do
  let line := if l.cursor.column == 0 then l.cursor.line else l.cursor.line + 1
  let l := { l with cursor.line := line,cursor.column := 0 }.dedent (-1)
  let l ← l.dropKey
  return { l with keyAllowed := false }.push .streamEnd line

def readDirective (l : Lexer) : Option Lexer := do
  let l ← (l.dedent (-1)).dropKey
  let (d,rest) ← directive? (l.rest.drop 1)
  let l ← ({ l with keyAllowed := false }.push (.directive d) l.cursor.line).readTo rest
  let (cur,rest) ← l.cursor.readBreak l.rest
  return { l with cursor := cur,rest := rest }

def readMarker (l : Lexer) (kind : TokenKind) : Option Lexer := do
  let l ← (l.dedent (-1)).dropKey
  return ({ l with keyAllowed := false }.push kind l.cursor.line).skip 3

def readOpening (l : Lexer) (kind : TokenKind) : Option Lexer := do
  let l ← l.noteKey
  if depthLimit ≤ l.flow then none
  let inner : KeyStart := { number := l.nextNumber,pos := l.cursor.toPos }
  return { l with keys := inner :: l.keys,flow := l.flow + 1,keyAllowed := true }.indicator kind

/-- With a level of brackets or braces goes what was held back for the place for a key in it; as long as
there was no key in it, that is the opening sign itself. -/
def closeLevel (l : Lexer) : Lexer :=
  match l.keys with
  | k :: outer => if 0 < l.flow then { l with flow := l.flow - 1,keys := outer }.release k.number else l
  | [] => l

def readClosing (l : Lexer) (kind : TokenKind) : Option Lexer := do
  let l ← l.dropKey
  return { l.closeLevel with keyAllowed := false }.indicator kind

def readComma (l : Lexer) : Option Lexer := do
  let l ← l.dropKey
  return { l with keyAllowed := true }.indicator .comma

def readDash (l : Lexer) : Option Lexer :=
  if l.flow == 0 && !l.keyAllowed then none
  else do
    let l ← l.openBlock l.cursor.column l.nextNumber .sequenceStart l.cursor.line
    let l ← l.dropKey
    return { l with keyAllowed := true }.indicator .dash

def readKey (l : Lexer) : Option Lexer :=
  if l.flow == 0 && !l.keyAllowed then none
  else do
    let l ← l.openBlock l.cursor.column l.nextNumber .mappingStart l.cursor.line
    let l ← l.dropKey
    return { l with keyAllowed := l.flow == 0 }.indicator .key

def reaches (l : Lexer) (k : KeyStart) : Bool :=
  k.pos.line == l.cursor.line && l.cursor.index ≤ k.pos.index + keyLimit

def readValue (l : Lexer) : Option Lexer :=
  let explicit (l : Lexer) : Option Lexer :=
    if l.flow == 0 && !l.keyAllowed then none
    else do
      let l ← l.openBlock l.cursor.column l.nextNumber .mappingStart l.cursor.line
      return { l with keyAllowed := l.flow == 0 }.indicator .value
  match l.keys with
  | k :: outer =>
    if !k.possible then explicit l
    else if l.reaches k then do
      let l := l.insert k.number .key k.pos.line
      let l ← l.openBlock k.pos.column k.number .mappingStart k.pos.line
      let l := { l with keys := { k with possible := false } :: outer,keyAllowed := false }
      return (l.release k.number).indicator .value
    else if k.required then none
    else explicit { l with keys := { k with possible := false } :: outer }
  | [] => explicit l

def readAnchor (l : Lexer) (kind : String → TokenKind) : Option Lexer := do
  let l ← l.noteKey
  let (name,rest) ← anchorName? (l.rest.drop 1)
  ({ l with keyAllowed := false }.push (kind (String.ofList name)) l.cursor.line).readTo rest

def readTag (l : Lexer) : Option Lexer := do
  let l ← l.noteKey
  let (t,rest) ← tag? (l.rest.drop 1)
  ({ l with keyAllowed := false }.push (.tag t) l.cursor.line).readTo rest

def pushScalar (l : Lexer) (isPlain : Bool) (x : Lexeme) : Lexer :=
  { l.push (.scalar (String.ofList x.text) isPlain) l.cursor.line with
    cursor := x.cursor
    rest := x.rest }

def readBlockScalar (l : Lexer) (literal : Bool) : Option Lexer := do
  let l ← l.dropKey
  let x ← blockScalar literal l.indent (l.cursor.along 1) (l.rest.drop 1)
  return { l with keyAllowed := true }.pushScalar false x

def readQuoted (l : Lexer) (single : Bool) : Option Lexer := do
  let l ← l.noteKey
  let body := l.rest.drop 1
  let cur ← (l.cursor.along 1).need 4 body
  let x ← if single then singleQuoted .none cur body else doubleQuoted .text .none cur body
  return { l with keyAllowed := false }.pushScalar false x

/-- The answer tells whether a break follows the scalar. -/
def readPlain (l : Lexer) : Option (Lexer × Bool) := do
  let l ← l.noteKey
  let x ← plain (0 < l.flow) (l.indent + 1).toNat .none l.cursor l.rest
  return ({ l with keyAllowed := x.broken }.pushScalar true x.lexeme,x.broken)

def startsPlain (flow : Bool) (c : Char) (rest : List Char) : Bool :=
  if c == '-' then !endsWord rest
  else if c == '?' || c == ':' then !flow && !endsWord rest
  else !(isSpacing c || isBreak c || ",[]\x7b\x7d#&*!|>'\"%@`".toList.contains c)

def readToken (l : Lexer) : Option Lexer :=
  match l.rest with
  | [] => l.readEnd
  | c :: rest =>
    let inFlow : Bool := 0 < l.flow
    let commented (r : Option Lexer) : Option Lexer := r.bind skipLineComment
    if l.cursor.column == 0 && c == '%' then l.readDirective
    else if l.cursor.column == 0 && isMarker (c :: rest) then
      l.readMarker (if c == '-' then .documentStart else .documentEnd)
    else if c == '[' then commented (l.readOpening .openBracket)
    else if c == '{' then commented (l.readOpening .openBrace)
    else if c == ']' then commented (l.readClosing .closeBracket)
    else if c == '}' then commented (l.readClosing .closeBrace)
    else if c == ',' then commented l.readComma
    else if c == '-' && endsWord rest then l.readDash
    else if c == '?' && (inFlow || endsWord rest) then commented l.readKey
    else if c == ':' && (inFlow || endsWord rest) then commented l.readValue
    else if c == '*' then commented (l.readAnchor .reference)
    else if c == '&' then commented (l.readAnchor .anchor)
    else if c == '!' then commented l.readTag
    else if c == '|' && !inFlow then l.readBlockScalar true
    else if c == '>' && !inFlow then l.readBlockScalar false
    else if c == '\'' then commented (l.readQuoted true)
    else if c == '"' then commented (l.readQuoted false)
    else if startsPlain inFlow c rest then
      match l.readPlain with
      | some (l,broken) => if broken then some l else l.skipLineComment
      | none => none
    else none

/-- Reads the next token, after the ends of the blocks that it is not in. -/
def step (l : Lexer) : Option Lexer := do
  let l ← l.need 1
  let l ← l.toToken
  let l ← (l.dedent l.cursor.column).need 4
  l.readToken

/-! ### Asking for tokens -/

/-- Whether the first token that waits can be taken as far as keys are concerned: no key can start
there any more, or it is not held back. -/
def isReleased (l : Lexer) : Option (Lexer × Bool) :=
  let isHere (k : KeyStart) : Bool := k.possible && k.number == l.taken
  match if l.heldBack.contains l.taken then l.keys.find? isHere else none with
  | none => some (l,true)
  | some k =>
    if l.reaches k then some (l,false)
    else if k.required then none
    else
      let drop (k : KeyStart) : KeyStart := if isHere k then { k with possible := false } else k
      some ({ l with keys := l.keys.map drop }.release l.taken,true)

/-- Reads on until a token can be taken: two more must be known, because comments between them may
still belong to it. -/
def fetch : Nat → Lexer → Option Lexer
  | 0, _ => none
  | fuel + 1, l => do
    let (l,ready) ← if 2 < l.tokens.length then l.isReleased else some (l,false)
    if ready then return l
    fetch fuel (← l.step)

def take (l : Lexer) : Lexer := { l with tokens := l.tokens.drop 1,taken := l.taken + 1 }

end Lexer
end Yaml
end CircuitNotes
