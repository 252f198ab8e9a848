import CircuitNotes.Yaml.Cursor

/-! Scalars without quotes. They end at a comment, before a colon that ends a word, and, inside
brackets or braces, at the characters that structure these. -/
namespace CircuitNotes
namespace Yaml

def isFlowIndicator (c : Char) : Bool :=
  c == ',' || c == '?' || c == '[' || c == ']' || c == '{' || c == '}'

structure PlainLexeme where
  lexeme : Lexeme
  broken : Bool
  deriving DecidableEq, Repr

def PlainLexeme.prepend (cs : List Char) (l : PlainLexeme) : PlainLexeme :=
  { l with lexeme := l.lexeme.prepend cs }

def endsAfterGap (gap : Gap) (cur : Cursor) (cs : List Char) : Bool :=
  gap != .none && ((cur.column == 0 && isMarker cs) || cs.head? == some '#')

def endsPlain (flow : Bool) (c : Char) (rest : List Char) : Bool :=
  (c == ':' && endsWord rest) || (flow && isFlowIndicator c)

/-- The rest of a plain scalar after a gap; the spacing and the breaks that follow it are read as
well. Outside brackets and braces its lines are indented by at least `indent`. A tab must not indent a
line. -/
def plain (flow : Bool) (indent : Nat) : Gap → Cursor → List Char → Option PlainLexeme
  | gap, cur, [] => some ⟨⟨[],cur,[]⟩,gap.isBroken⟩
  | gap, cur, c :: rest =>
    if isSpacing c then
      if gap.isBroken && cur.column < indent && c == '\t' then none
      else do
        let cur ← (cur.next c).need 1 rest
        plain flow indent (gap.addSpacing c) cur rest
    else if isBreak c then do
      let cur ← cur.need 2 (c :: rest)
      let cur ← (cur.next c).need 1 rest
      plain flow indent (gap.addBreak c) cur rest
    else if gap != .none && !flow && cur.column < indent then
      some ⟨⟨[],cur,c :: rest⟩,gap.isBroken⟩
    else do
      let cur ← if gap == .none then some cur else cur.need 4 (c :: rest)
      if endsAfterGap gap cur (c :: rest) || endsPlain flow c rest then
        some ⟨⟨[],cur,c :: rest⟩,gap.isBroken⟩
      else
        let cur ← (cur.next c).need 2 rest
        (plain flow indent .none cur rest).map (PlainLexeme.prepend (gap.fill ++ [c]))

end Yaml
end CircuitNotes
