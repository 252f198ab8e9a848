import CircuitNotes.Text.Base64
import CircuitNotes.Text.Quoted
import CircuitNotes.Yaml.Node

/-! Values of given types from the nodes of a document. What does not fit is reported and leaves the
value as it was. Reading is given up where a tag contradicts its scalar, where a reference leads into
itself, and where nearly all of what is read comes from references. -/
namespace CircuitNotes
namespace Yaml

inductive Mismatch
  /-- A node of another kind than the type wants. -/
  | kind (line : Nat) (tag text type : String)
  | repeatedKey (line : Nat) (key : String) (first : Nat)
  | repeatedField (line : Nat) (field type : String)
  deriving DecidableEq, Repr

namespace Mismatch

def shown (text : Text) : Text := if 10 < text.length then text.take 7 ++ "..." else text

def message : Mismatch → Text
  | kind line tag text type =>
    let value : Text := if tag == "!!seq" || tag == "!!map" then text else " `" ++ shown text ++ "`"
    "line " ++ Text.ofNat line ++ ": cannot unmarshal " ++ tag ++ value ++ " into " ++ type
  | repeatedKey line key first =>
    "line " ++ Text.ofNat line ++ ": mapping key " ++ (Text.ofString key).quote ++
      " already defined at line " ++ Text.ofNat first
  | repeatedField line field type =>
    "line " ++ Text.ofNat line ++ ": field " ++ field ++ " already set in type " ++ type

end Mismatch

/-- What a reader of nodes knows: the nodes with names, the references that it is following, and how
deep it can get. -/
structure Scope where
  named : List (Nat × Node)
  following : List Nat := []
  depth : Nat

structure Progress where
  mismatches : List Mismatch := []
  /-- The nodes that were read, and those among them that were read through references. -/
  nodes : Nat := 0
  copies : Nat := 0

/-- Reading nodes; none when it must be given up. -/
abbrev Decoding := ReaderT Scope (StateT Progress Option)

namespace Progress

/-- How much of what is read may be copies, in parts of 360 million: 99 percent of up to 400,000 nodes,
10 percent of four million or more, and something in between for numbers in between. -/
def allowedCopies (nodes : Nat) : Nat :=
  if nodes ≤ 400000 then 356400000
  else if 4000000 ≤ nodes then 36000000
  else 356400000 - 89 * (nodes - 400000)

def isExcessive (p : Progress) : Bool :=
  100 < p.copies && 1000 < p.nodes && p.nodes * allowedCopies p.nodes < p.copies * 360000000

end Progress

def Node.keyLabel : Node → Nat × String
  | scalar _ text _ => (0,text)
  | sequence _ _ _ => (1,"")
  | mapping _ _ _ => (2,"")
  | reference _ name _ _ => (3,name)

namespace Decoding

def report (m : Mismatch) : Decoding Unit :=
  modify fun p => { p with mismatches := p.mismatches ++ [m] }

def count : Decoding Unit := do
  let copies := if (← read).following.isEmpty then 0 else 1
  modify fun p => { p with nodes := p.nodes + 1,copies := p.copies + copies }
  if (← get).isExcessive then failure

def behind {α : Type} (decode : Node → Decoding α) (n : Node) : Decoding α := do
  count
  match n with
  | .reference id _ target _ =>
    let scope ← read
    if scope.following.contains id then failure
    match scope.named.lookup target with
    | some m =>
      withReader (fun scope => { scope with following := id :: scope.following }) do
        count
        decode m
    | none => failure
  | n => decode n

def repeatedKeys : List (Node × Node) → List Mismatch
  | [] => []
  | (k,_) :: rest =>
    (rest.filterMap fun (l,_) =>
      if k.keyLabel == l.keyLabel then some (.repeatedKey l.line l.keyLabel.2 k.line) else none) ++
      repeatedKeys rest

/-- Reports that a node is not of a type; keys that are repeated in it are reported instead. -/
def refuse (n : Node) (type : String) : Decoding Unit :=
  match n with
  | .scalar tag text line => report (.kind line tag text type)
  | .sequence tag _ line => report (.kind line tag "" type)
  | .mapping tag pairs line =>
    match repeatedKeys pairs with
    | [] => report (.kind line tag "" type)
    | ms => ms.forM report
  | .reference _ _ _ _ => pure ()

def meaningOf (tag text : String) : Decoding (Meaning × String) :=
  match taggedMeaning? tag text with
  | some m =>
    if tag == "!!binary" then
      match Base64.decode? text with
      | some bytes => pure (m,bytes.toString)
      | none => failure
    else pure (m,text)
  | none => failure

/-- A value of a type that scalars stand for; none if the node is null or does not fit. -/
def ofScalar {α : Type} (type : String) (value? : Meaning → String → Option α) :
    Node → Decoding (Option α) :=
  behind fun
    | .scalar tag text line => do
      let (m,value) ← meaningOf tag text
      if m = .null then return none
      match value? m value with
      | some a => return some a
      | none => do
        report (.kind line tag text type)
        return none
    | other => do
      refuse other type
      return none

/-- A text is any scalar but null, as it is written. -/
def text : Node → Decoding (Option String) := ofScalar "string" (fun _ s => some s)

/-- The integer part of a number. Numbers below the range of 64 bits, and the first one above it, give
the least integer; what is above or not a number gives none. -/
def wholePart? : Real → Option Int
  | .undefined => none
  | .infinite negative => if negative then some Integer.min else none
  | .finite x =>
    let magnitude : Nat := if 0 ≤ x.exponent then x.significand <<< x.exponent.toNat
      else x.significand >>> (-x.exponent).toNat
    let whole : Int := if x.negative then -magnitude else magnitude
    if whole < Integer.min then some Integer.min
    else if whole ≤ Integer.max then some whole
    else if whole = Integer.max + 1 then some Integer.min else none

def int? (m : Meaning) : Option Int :=
  match m with
  | .int i => if i ≤ Integer.max then some i else none
  | .float x => wholePart? x
  | _ => none

def int : Node → Decoding (Option Int) := ofScalar "int" (fun m _ => int? m)

/-- Besides the truth values themselves, some words stand for them where one is wanted. -/
def bool? (m : Meaning) (s : String) : Option Bool :=
  match m with
  | .bool b => some b
  | .text =>
    if s ∈ ["y","Y","yes","Yes","YES","on","On","ON"] then some true
    else if s ∈ ["n","N","no","No","NO","off","Off","OFF"] then some false
    else none
  | _ => none

def bool : Node → Decoding (Option Bool) := ofScalar "bool" bool?

/-- A list of texts. Null is the empty list; items that are null or do not fit are left out. -/
def texts : Node → Decoding (Option (List String)) :=
  behind fun
    | .sequence _ items _ => do
      let found ← items.mapM text
      return some (found.filterMap id)
    | .scalar tag s line => do
      let (m,_) ← meaningOf tag s
      if m = .null then return some []
      report (.kind line tag s "[]string")
      return none
    | other => do
      refuse other "[]string"
      return none

end Decoding
end Yaml
end CircuitNotes
