import CircuitNotes.Text.Basic

/-! Buckets: values by key, in ascending byte order of the keys. -/
namespace CircuitNotes

abbrev Bucket (α : Type) := List (Text × α)

namespace Bucket

variable {α : Type}

def find? (b : Bucket α) (key : Text) : Option α := b.lookup key

def insert (key : Text) (value : α) : Bucket α → Bucket α
  | [] => [(key,value)]
  | (k,v) :: rest =>
    if key < k then (key,value) :: (k,v) :: rest
    else if key = k then (key,value) :: rest
    else (k,v) :: insert key value rest

def erase (key : Text) (b : Bucket α) : Bucket α := b.filter fun e => e.1 != key

@[simp] theorem find?_insert_self (key : Text) (value : α) (b : Bucket α) :
    find? (insert key value b) key = some value := by
  induction b with
  | nil => simp [insert,find?]
  | cons e rest ih =>
    obtain ⟨k,v⟩ := e
    simp only [insert]
    split
    · simp [find?]
    · split
      · simp [find?]
      · rename_i _ hne
        simp only [find?,List.lookup_cons] at ih ⊢
        simp [beq_eq_false_iff_ne.mpr hne,ih]

end Bucket
end CircuitNotes
