import CircuitNotes.Text.Basic

/-! Texts brought to a width. A column is as wide as it has characters; what is wider stays as it
is. -/
namespace CircuitNotes
namespace Text

def width (t : Text) : Nat := t.glyphs.length

def padLeft (n : Nat) (t : Text) : Text := List.replicate (n - t.width) 32 ++ t

def padRight (n : Nat) (t : Text) : Text := t ++ List.replicate (n - t.width) 32

theorem padLeft_of_le {n : Nat} {t : Text} (h : n ≤ t.width) : padLeft n t = t := by
  simp [padLeft,Nat.sub_eq_zero_of_le h]

theorem padRight_of_le {n : Nat} {t : Text} (h : n ≤ t.width) : padRight n t = t := by
  simp [padRight,Nat.sub_eq_zero_of_le h]

end Text
end CircuitNotes
