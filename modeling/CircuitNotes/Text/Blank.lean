import CircuitNotes.Text.Basic

/-! White space at the ends of a text. Blanks are the characters with the Unicode property
White_Space; a stray byte is never blank. -/
namespace CircuitNotes

/-- The characters with the property White_Space. -/
def isBlank (c : Char) : Bool :=
  let n := c.toNat
  (9 ≤ n && n ≤ 13) || n == 0x20 || n == 0x85 || n == 0xA0 || n == 0x1680 ||
    (0x2000 ≤ n && n ≤ 0x200A) || n == 0x2028 || n == 0x2029 || n == 0x202F || n == 0x205F ||
    n == 0x3000

theorem isBlank_of_isWhitespace (c : Char) (h : c.isWhitespace = true) : isBlank c = true := by
  simp only [Char.isWhitespace,Bool.or_eq_true,decide_eq_true_eq] at h
  rcases h with ((rfl | rfl) | rfl) | rfl <;> decide

namespace Text

def trimLeft (t : Text) : Text :=
  ((glyphs t).dropWhile fun g => isBlank (glyphChar g)).flatten

def trimRight (t : Text) : Text :=
  ((glyphs t).reverse.dropWhile fun g => isBlank (glyphChar g)).reverse.flatten

def trim (t : Text) : Text := trimRight (trimLeft t)

@[simp] theorem trim_nil : trim [] = [] := rfl

end Text
end CircuitNotes
