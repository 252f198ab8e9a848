import CircuitNotes.Text.Basic

/-! A bounded cache that forgets what has gone unused the longest. Beside its entries it keeps their
keys in the order in which they were last used, so the first one is the next to go. -/
namespace CircuitNotes

/-- A cache of at most `limit` entries; `hits` counts the lookups that found their key. -/
structure Recency (α : Type) where
  limit : Nat
  entries : List (Text × α) := []
  /-- The keys of the entries, the least recently used one first. -/
  order : List Text := []
  hits : Nat := 0
  deriving Repr

namespace Recency

variable {α : Type}

def defaultLimit : Nat := 256

/-- An empty cache. A limit that is not positive means the default one. -/
def empty (limit : Int) : Recency α :=
  ⟨if limit ≤ 0 then defaultLimit else limit.toNat,[],[],0⟩

def size (c : Recency α) : Nat := c.entries.length

def keys (c : Recency α) : List Text := c.entries.map Prod.fst

def find? (c : Recency α) (key : Text) : Option α := c.entries.lookup key

def without (key : Text) (entries : List (Text × α)) : List (Text × α) :=
  entries.filter fun e => e.1 != key

/-- The keys with one of them at the end, where the most recently used one stands. -/
def moveToEnd (key : Text) (order : List Text) : List Text := order.erase key ++ [key]

def get (c : Recency α) (key : Text) : Option α × Recency α :=
  match c.find? key with
  | none => (none,c)
  | some value => (some value,{ c with order := moveToEnd key c.order,hits := c.hits + 1 })

def evict (c : Recency α) : Recency α :=
  match c.order with
  | [] => c
  | oldest :: later => { c with entries := without oldest c.entries,order := later }

def makeRoom (c : Recency α) : Recency α := if c.limit ≤ c.entries.length then c.evict else c

/-- The cache with a value for a key. A new key in a full cache takes the place of the least
recently used one. -/
def put (c : Recency α) (key : Text) (value : α) : Recency α :=
  if (c.find? key).isSome then
    { c with entries := without key c.entries ++ [(key,value)],order := moveToEnd key c.order }
  else
    { c.makeRoom with
      entries := c.makeRoom.entries ++ [(key,value)],order := c.makeRoom.order ++ [key] }

@[simp] theorem size_empty (limit : Int) : (empty limit : Recency α).size = 0 := rfl

@[simp] theorem get_of_find?_eq_none {c : Recency α} {key : Text} (h : c.find? key = none) :
    c.get key = (none,c) := by
  simp [get,h]

@[simp] theorem limit_get (c : Recency α) (key : Text) : (c.get key).2.limit = c.limit := by
  unfold get
  split <;> rfl

@[simp] theorem limit_makeRoom (c : Recency α) : c.makeRoom.limit = c.limit := by
  unfold makeRoom evict
  split
  · split <;> rfl
  · rfl

@[simp] theorem hits_makeRoom (c : Recency α) : c.makeRoom.hits = c.hits := by
  unfold makeRoom evict
  split
  · split <;> rfl
  · rfl

@[simp] theorem limit_put (c : Recency α) (key : Text) (value : α) :
    (c.put key value).limit = c.limit := by
  unfold put
  simp only [apply_ite limit,limit_makeRoom,ite_self]

@[simp] theorem hits_put (c : Recency α) (key : Text) (value : α) :
    (c.put key value).hits = c.hits := by
  unfold put
  simp only [apply_ite hits,hits_makeRoom,ite_self]

end Recency

end CircuitNotes
