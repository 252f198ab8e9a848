import CircuitNotes.History.Record
import CircuitNotes.MessagePack.Basic

/-! The stored form of a record: a MessagePack map of its fields in a fixed order. A list that is
missing is written as nil. The parameters and the unresolved arguments of a gate are left out when
there are none. -/
namespace CircuitNotes
namespace Packed

open MessagePack

/-! ### Writing -/

def list? {α : Type} (write : α → Text) : Option (List α) → Text
  | none => writeNil
  | some items => writeList (items.map write)

def texts (ts : List Text) : Text := writeList (ts.map writeText)

def gate (g : Gate) : Text :=
  writeFields <|
    [("name",writeText g.name),("qubits",list? writeInt g.qubits)] ++
    (if g.params.isEmpty then [] else [("params",texts g.params)]) ++
    (if g.unresolved.isEmpty then [] else [("unresolved",texts g.unresolved)])

def circuit (c : Circuit) : Text :=
  writeFields
    [("circuit_name",writeText c.name),("qubit_num",writeInt c.qubits),
     ("gates",list? gate c.gates)]

def block (b : Block) : Text :=
  writeFields [("heading",writeText b.heading),("explanation",writeText b.explanation)]

def document (d : Document) : Text := writeFields [("blocks",list? block d.blocks)]

/-- The kind of the extension that holds instants: minus one. -/
def instantKind : UInt8 := 0xFF

/-- An instant in four bytes when it is a whole second that fits, in eight when its seconds fit 34
bits, and otherwise in twelve. -/
def instant (t : Instant) : Text :=
  if 0 ≤ t.seconds ∧ t.seconds.toNat < 1 <<< 34 then
    let data := (t.nanos <<< 34) + t.seconds.toNat
    if data < 1 <<< 32 then 0xD6 :: instantKind :: bigEndian 4 data
    else 0xD7 :: instantKind :: bigEndian 8 data
  else 0xC7 :: 12 :: instantKind :: (bigEndian 4 t.nanos ++ bigEndianInt 8 t.seconds)

def record (r : Record) : Text :=
  writeFields
    [("path",writeText r.path),("hash",writeText r.hash),("mod_time",writeLong r.modified),
     ("result",circuit r.circuit),("document",document r.document),
     ("explained_at",instant r.explainedAt)]

/-! ### Reading. A map sets the fields that it names, one after another, in what is already there. A
list gives all the fields in their order. Nil and the empty list stand for the empty value. -/

def text? : MessagePack → Option Text
  | .nil => some []
  | .text t => some t
  | _ => none

/-- Integers have 64 bits; the upper half of those without a sign stands for the negative ones. -/
def int? : MessagePack → Option Int
  | .nil => some 0
  | .int i => some (Int.bmod i (1 <<< 64))
  | _ => none

def ints? : MessagePack → Option (Option (List Int))
  | .nil => some none
  | .list items => (items.mapM int?).map some
  | _ => none

/-- Texts in the place of others; nil leaves these. -/
def textsOver? (v : MessagePack) (old : List Text) : Option (List Text) :=
  match v with
  | .nil => some old
  | .list items => items.mapM text?
  | _ => none

structure FieldRule (σ : Type) where
  name : String
  set : MessagePack → σ → Option σ

/-- The pairs of a map, one after another. Names that are not known are passed over. -/
def setPairs {σ : Type} (rules : List (FieldRule σ)) :
    List (MessagePack × MessagePack) → σ → Option σ
  | [], s => some s
  | (k,v) :: rest, s => do
    let name ← text? k
    match rules.find? fun r => Text.ofString r.name == name with
    | some r => setPairs rules rest (← r.set v s)
    | none => setPairs rules rest s

def setItems {σ : Type} : List (FieldRule σ) → List MessagePack → σ → Option σ
  | [], [], s => some s
  | r :: rules, v :: rest, s => do setItems rules rest (← r.set v s)
  | _, _, _ => none

def over? {σ : Type} (rules : List (FieldRule σ)) (empty : σ) (v : MessagePack) (s : σ) : Option σ :=
  match v with
  | .nil => some empty
  | .list [] => some empty
  | .list items => setItems rules items s
  | .map pairs => setPairs rules pairs s
  | _ => none

/-- A list while a record is read. A later list under the same name is read into the places of the
earlier one, item by item, and `behind` is what the places after the last item held before. -/
structure Draft (α : Type) where
  items : Option (List α) := none
  behind : List α := []

/-- Items read into the places of others, and into empty ones when these are used up. -/
def itemsOver? {α : Type} (fill : MessagePack → α → Option α) (empty : α) :
    List MessagePack → List α → Option (List α)
  | [], _ => some []
  | v :: rest, [] => do return (← fill v empty) :: (← itemsOver? fill empty rest [])
  | v :: rest, place :: places => do return (← fill v place) :: (← itemsOver? fill empty rest places)

def Draft.over? {α : Type} (fill : MessagePack → α → Option α) (empty : α) (v : MessagePack)
    (d : Draft α) : Option (Draft α) :=
  match v with
  | .nil => some {}
  | .list items => do
    let places := d.items.getD [] ++ d.behind
    return ⟨some (← itemsOver? fill empty items places),places.drop items.length⟩
  | _ => none

def emptyGate : Gate := ⟨[],none,[],[]⟩

def gateRules : List (FieldRule Gate) :=
  [⟨"name",fun v g => do return { g with name := ← text? v }⟩,
   ⟨"qubits",fun v g => do return { g with qubits := ← ints? v }⟩,
   ⟨"params",fun v g => do return { g with params := ← textsOver? v g.params }⟩,
   ⟨"unresolved",fun v g => do return { g with unresolved := ← textsOver? v g.unresolved }⟩]

def emptyBlock : Block := ⟨[],[]⟩

def blockRules : List (FieldRule Block) :=
  [⟨"heading",fun v b => do return { b with heading := ← text? v }⟩,
   ⟨"explanation",fun v b => do return { b with explanation := ← text? v }⟩]

structure CircuitDraft where
  name : Text := []
  qubits : Int := 0
  gates : Draft Gate := {}

def CircuitDraft.circuit (c : CircuitDraft) : Circuit := ⟨c.name,c.qubits,c.gates.items⟩

def circuitRules : List (FieldRule CircuitDraft) :=
  [⟨"circuit_name",fun v c => do return { c with name := ← text? v }⟩,
   ⟨"qubit_num",fun v c => do return { c with qubits := ← int? v }⟩,
   ⟨"gates",fun v c => do
      return { c with gates := ← c.gates.over? (over? gateRules emptyGate) emptyGate v }⟩]

def documentRules : List (FieldRule (Draft Block)) :=
  [⟨"blocks",fun v d => d.over? (over? blockRules emptyBlock) emptyBlock v⟩]

/-- The start of the year -292277022399. Seconds are counted from there in 64 bits, so that what lies
before it comes out at the other end. -/
def firstSecond : Int := -9223371966579724800

/-- An instant by its seconds and nanoseconds; nanoseconds beyond a second count as seconds. -/
def instantOf (seconds : Int) (nanos : Nat) : Instant :=
  ⟨firstSecond + (seconds + (nanos / 1000000000 : Nat) - firstSecond) % (1 <<< 64 : Nat),
    nanos % 1000000000⟩

def instant? : MessagePack → Option Instant
  | .extension kind data =>
    if kind != instantKind then none
    else if data.length == 4 then some (instantOf (ofBigEndian data) 0)
    else if data.length == 8 then
      let n := ofBigEndian data
      some (instantOf (n % 1 <<< 34 : Nat) (n >>> 34))
    else if data.length == 12 then
      some (instantOf (ofBigEndianInt (data.drop 4)) (ofBigEndian (data.take 4)))
    else none
  | _ => none

def instantOver? (v : MessagePack) (old : Instant) : Option Instant :=
  match v with
  | .nil => some old
  | v => instant? v

structure RecordDraft where
  path : Text := []
  hash : Text := []
  modified : Int := 0
  circuit : CircuitDraft := {}
  blocks : Draft Block := {}
  explainedAt : Instant := .unset

def RecordDraft.record (r : RecordDraft) : Record :=
  ⟨r.path,r.hash,r.modified,r.circuit.circuit,⟨r.blocks.items⟩,r.explainedAt⟩

def recordRules : List (FieldRule RecordDraft) :=
  [⟨"path",fun v r => do return { r with path := ← text? v }⟩,
   ⟨"hash",fun v r => do return { r with hash := ← text? v }⟩,
   ⟨"mod_time",fun v r => do return { r with modified := ← int? v }⟩,
   ⟨"result",fun v r => do return { r with circuit := ← over? circuitRules {} v r.circuit }⟩,
   ⟨"document",fun v r => do return { r with blocks := ← over? documentRules {} v r.blocks }⟩,
   ⟨"explained_at",fun v r => do
      return { r with explainedAt := ← instantOver? v r.explainedAt }⟩]

/-- The record that stored bytes start with, and the bytes after it. -/
def read? (t : Text) : Option (Record × Text) := do
  let (v,rest) ← MessagePack.read? t
  let draft ← over? recordRules {} v {}
  return (draft.record,rest)

end Packed
end CircuitNotes
