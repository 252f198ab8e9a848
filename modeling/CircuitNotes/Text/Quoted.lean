import CircuitNotes.Text.Basic
import CircuitNotes.Text.Printable

/-! Texts between double quotes, as messages and listings show them: what is printable stands for
itself, all else is written as an escape. -/
namespace CircuitNotes
namespace Text

def hexDigits (width n : Nat) : List Char :=
  ((List.range width).map fun i => Nat.digitChar ((n >>> (4 * i)) % 16)).reverse

def quoteChar (c : Char) : List Char :=
  if c == '"' then ['\\','"']
  else if c == '\\' then ['\\','\\']
  else if isPrintable c then [c]
  else match c.toNat with
    | 7 => ['\\','a']
    | 8 => ['\\','b']
    | 9 => ['\\','t']
    | 10 => ['\\','n']
    | 11 => ['\\','v']
    | 12 => ['\\','f']
    | 13 => ['\\','r']
    | n =>
      if n < 0x20 || n == 0x7F then '\\' :: 'x' :: hexDigits 2 n
      else if n < 0x10000 then '\\' :: 'u' :: hexDigits 4 n
      else '\\' :: 'U' :: hexDigits 8 n

/-- One glyph inside quotes; a stray byte is written by its value. -/
def quoteGlyph : Text → List Char
  | [b] => if b < 0x80 then quoteChar (Char.ofNat b.toNat) else '\\' :: 'x' :: hexDigits 2 b.toNat
  | g => quoteChar (glyphChar g)

def quote (t : Text) : String :=
  String.ofList ('"' :: (glyphs t).flatMap quoteGlyph ++ ['"'])

end Text
end CircuitNotes
