import CircuitNotes.Number.Numeral
import CircuitNotes.Text.Blank

/-! The arguments of a gate call: pieces between commas, trimmed, each with its value when it is a
numeral. -/
namespace CircuitNotes

structure Argument where
  text : Text
  value : Option Binary64
  deriving DecidableEq, Repr

namespace Argument

def ofText (t : Text) : Argument := ⟨t,(Numeral.read? t).bind Numeral.toBinary64?⟩

def maxQubit : Nat := 2147483647

def qubit? (a : Argument) : Option Nat := do
  let n ← (← a.value).toNat?
  if n ≤ maxQubit then some n else none

theorem qubit?_le {a : Argument} {n : Nat} (h : a.qubit? = some n) : n ≤ maxQubit := by
  obtain ⟨x,_,h⟩ := Option.bind_eq_some_iff.mp h
  obtain ⟨m,_,h⟩ := Option.bind_eq_some_iff.mp h
  split at h
  · cases h
    assumption
  · cases h

def comma : UInt8 := 44

/-- One comma at the end of an argument list is left out. -/
def dropComma (t : Text) : Text := if t.getLast? = some comma then t.dropLast else t

/-- The arguments written in a call. Empty pieces keep their position. -/
def split (raw : Text) : List Argument :=
  let body := dropComma raw.trim
  if body.trim.isEmpty then [] else (body.splitOn comma).map fun piece => ofText piece.trim

end Argument
end CircuitNotes
