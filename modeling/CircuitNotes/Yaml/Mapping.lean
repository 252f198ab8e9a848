import CircuitNotes.Yaml.Decoding

/-! Structures from mappings. Under the key `<<` a mapping names others, whose pairs it takes over where
it has none of its own. Which keys are its own is seen from what they mean, so that keys of every kind
are read for it. -/
namespace CircuitNotes
namespace Yaml

inductive Key
  | scalar (m : Meaning) (text : String)
  | collection
  deriving DecidableEq, Repr

/-- The key that a scalar is. Its text counts where the meaning does not say it all. -/
def Key.ofScalar (m : Meaning) (text : String) : Key :=
  .scalar m (if m = .text ∨ m = .timestamp then text else "")

def Key.ofText (s : String) : Key := .scalar .text s

structure Filling (σ : Type) where
  /-- The keys that were met, while mappings are merged; none outside a merge. -/
  met : Option (List Key) := none
  /-- The fields that the current mapping has set. -/
  done : List String := []
  value : σ

namespace Filling

/-- Whether a key counts: in a merge the first of its kind does. -/
def isNew {σ : Type} (f : Filling σ) (k : Key) : Bool := !(f.met.getD []).contains k

def meet {σ : Type} (f : Filling σ) (k : Key) : Filling σ := { f with met := f.met.map (k :: ·) }

end Filling

namespace Decoding

def isMergeKey : Node → Bool
  | .scalar tag text _ => text == "<<" && tag == "!!merge"
  | _ => false

def isMapping : Node → Bool
  | .mapping _ _ _ => true
  | _ => false

/-- Whether a node can be merged: a mapping, or a reference to one. -/
def isMergeable : Node → Decoding Bool
  | .reference _ _ target _ => do
    return ((← read).named.lookup target).any isMapping
  | n => return isMapping n

/-- The mappings that the merge key of a mapping names: one, or those of a sequence. -/
def mergeSources (pairs : List (Node × Node)) : Decoding (List Node) := do
  match pairs.find? fun p => isMergeKey p.1 with
  | none => return []
  | some (_,source) =>
    let sources := match source with
      | .sequence _ items _ => items
      | n => [n]
    if ← sources.allM isMergeable then return sources else failure

def keysOf (key : Node → Decoding (Option Key)) : List (Node × Node) → Decoding (List Key)
  | [] => return []
  | (k,_) :: rest => do
    match ← key k with
    | none => keysOf key rest
    | some .collection => failure
    | some k => return k :: (← keysOf key rest)

/-- Fills in the pairs of a mapping, one after another, and then those of the mappings that it merges.
The answer tells whether the keys of the mapping are different ones. -/
def fillMapping {σ : Type} (key : Node → Decoding (Option Key))
    (fillPair : Node × Node → Filling σ → Decoding (Filling σ)) :
    Nat → List (Node × Node) → Filling σ → Decoding (Filling σ × Bool)
  | 0, _, _ => failure
  | fuel + 1, pairs, f => do
    match repeatedKeys pairs with
    | [] =>
      let own := pairs.filter fun p => !isMergeKey p.1
      let f ← own.foldlM (fun f p => fillPair p f) { f with done := [] }
      if own.length == pairs.length then return (f,true)
      let met ← match f.met with
        | some met => pure met
        | none => keysOf key pairs
      let sources ← mergeSources pairs
      let merged ← sources.foldlM (fun f source => behind (fillSource fuel f) source)
        { f with met := some met }
      return ({ merged with met := f.met.bind fun _ => merged.met },true)
    | ms =>
      ms.forM report
      return (f,false)
where
  fillSource (fuel : Nat) (f : Filling σ) : Node → Decoding (Filling σ)
    | .mapping _ pairs _ => do
      let (f,_) ← fillMapping key fillPair fuel pairs f
      return f
    | _ => failure

def areTexts (pairs : List (Node × Node)) : Decoding Bool :=
  pairs.allM fun (k,_) => do
    let k ← match k with
      | .reference _ _ target _ => do pure (((← read).named.lookup target).getD k)
      | k => pure k
    match k with
    | .scalar tag _ _ => return tag == "!!str" || tag == "!!merge"
    | _ => return false

/-- A pair of a mapping of which no type is known. Its key must not be a collection. -/
def anyPair (key : Node → Decoding (Option Key)) (textual : Bool) (p : Node × Node)
    (f : Filling Unit) : Decoding (Filling Unit) := do
  match ← if textual then do pure ((← text p.1).map Key.ofText) else key p.1 with
  | none => return f
  | some .collection => failure
  | some k =>
    if f.isNew k then
      let _ ← key p.2
      return f.meet k
    else return f

/-- What a node means that no type is known of, as far as keys are told apart; none if its own keys are
not. -/
def key : Nat → Node → Decoding (Option Key)
  | 0, _ => failure
  | fuel + 1, n => behind (fun
      | .scalar tag text _ => do
        let (m,value) ← meaningOf tag text
        return some (Key.ofScalar m value)
      | .sequence _ items _ => do
        items.forM fun item => discard (key fuel item)
        return some .collection
      | .mapping _ pairs _ => do
        let textual ← areTexts pairs
        let (_,distinct) ←
          fillMapping (key fuel) (anyPair (key fuel) textual) fuel pairs { value := () }
        return if distinct then some .collection else none
      | .reference _ _ _ _ => failure) n

/-! ### Structures -/

structure KeyRule (σ : Type) where
  name : String
  set : Node → σ → Decoding σ

def KeyRule.of {σ α : Type} (name : String) (decode : Node → Decoding (Option α)) (put : α → σ → σ) :
    KeyRule σ where
  name := name
  set := fun n s => do
    match ← decode n with
    | some a => return put a s
    | none => return s

/-- A pair of a mapping that stands for a structure. Keys that are not known are passed over. -/
def structPair {σ : Type} (type : String) (rules : List (KeyRule σ)) (p : Node × Node)
    (f : Filling σ) : Decoding (Filling σ) := do
  match ← text p.1 with
  | none => return f
  | some name =>
    if !f.isNew (Key.ofText name) then return f
    let f := f.meet (Key.ofText name)
    match rules.find? (·.name == name) with
    | none => return f
    | some rule =>
      if f.done.contains name then
        report (.repeatedField p.1.line name type)
        return f
      let value ← rule.set p.2 f.value
      return { f with value := value,done := name :: f.done }

/-- A structure with the values of a mapping. Null leaves it as it is. -/
def struct {σ : Type} (type : String) (rules : List (KeyRule σ)) (n : Node) (s : σ) : Decoding σ :=
  behind (fun
    | .mapping _ pairs _ => do
      let depth := (← read).depth
      let (f,_) ← fillMapping (key depth) (structPair type rules) (depth + 1) pairs { value := s }
      return f.value
    | .scalar tag text line => do
      let (m,_) ← meaningOf tag text
      if m = .null then return s
      report (.kind line tag text type)
      return s
    | other => do
      refuse other type
      return s) n

def ofTree {α : Type} (tree : Tree) (decode : Node → Decoding α) : Option (α × List Mismatch) := do
  let whole : Decoding α := do
    count
    decode tree.root
  let (a,p) ← (ReaderT.run whole { named := tree.named,depth := tree.depth }).run {}
  return (a,p.mismatches)

end Decoding
end Yaml
end CircuitNotes
