import CircuitNotes.Text.Quoted

/-! JSON values and how they are written. Objects keep the order of their fields. -/
namespace CircuitNotes

inductive Json
  | null
  | int (i : Int)
  | text (t : Text)
  | list (items : List Json)
  | object (fields : List (String × Json))

namespace Json

/-- One glyph inside a string. Besides quotes, backslashes and control characters, the characters
that mean something in HTML and the two line separators are escaped; a stray byte becomes U+FFFD. -/
def escapeGlyph (g : Text) : Text :=
  let c := Text.glyphChar g
  if c == '"' then "\\\""
  else if c == '\\' then "\\\\"
  else match c.toNat with
    | 8 => "\\b"
    | 9 => "\\t"
    | 10 => "\\n"
    | 12 => "\\f"
    | 13 => "\\r"
    | n =>
      if n < 0x20 || c == '<' || c == '>' || c == '&' || n == 0x2028 || n == 0x2029
      then "\\u" ++ String.ofList (Text.hexDigits 4 n)
      else String.singleton c

def quote (t : Text) : Text := "\"" ++ t.glyphs.flatMap escapeGlyph ++ "\""

def newline (depth : Nat) : Text := 10 :: List.replicate (2 * depth) 32

mutual

/-- The value over several lines, two spaces to a level. -/
def pretty (depth : Nat) : Json → Text
  | null => "null"
  | int i => Text.ofInt i
  | text t => quote t
  | list [] => "[]"
  | list (x :: xs) =>
    "[" ++ newline (depth + 1) ++ pretty (depth + 1) x ++ prettyItems (depth + 1) xs ++
      newline depth ++ "]"
  | object [] => "\x7b\x7d"
  | object ((k,v) :: rest) =>
    "\x7b" ++ newline (depth + 1) ++ quote k ++ ": " ++ pretty (depth + 1) v ++
      prettyFields (depth + 1) rest ++ newline depth ++ "\x7d"

def prettyItems (depth : Nat) : List Json → Text
  | [] => []
  | x :: xs => "," ++ newline depth ++ pretty depth x ++ prettyItems depth xs

def prettyFields (depth : Nat) : List (String × Json) → Text
  | [] => []
  | (k,v) :: rest =>
    "," ++ newline depth ++ quote k ++ ": " ++ pretty depth v ++ prettyFields depth rest

end

end Json
end CircuitNotes
