import CircuitNotes.Yaml.Meaning
import CircuitNotes.Yaml.Token

/-! The tree that a YAML document stands for. Every node has the line it starts in, counted from one,
and a tag: the one it was given, or else the one that its form implies. A reference stands for a node
that was given a name, which may be one that contains the reference. -/
namespace CircuitNotes
namespace Yaml

inductive Node
  | scalar (tag text : String) (line : Nat)
  | sequence (tag : String) (items : List Node) (line : Nat)
  | mapping (tag : String) (pairs : List (Node × Node)) (line : Nat)
  /-- The node with the number `target` among those with names. Every reference has an `id` of its
  own. -/
  | reference (id : Nat) (name : String) (target : Nat) (line : Nat)
  deriving Inhabited

namespace Node

def line : Node → Nat
  | scalar _ _ l => l
  | sequence _ _ l => l
  | mapping _ _ l => l
  | reference _ _ _ l => l

end Node

/-- A document: its root, and the nodes that were given names, by their numbers. -/
structure Tree where
  root : Node
  named : List (Nat × Node)
  /-- No way through the tree that follows each reference once is longer. -/
  depth : Nat

def coreTags : String := "tag:yaml.org,2002:"

def shortTag (tag : String) : String :=
  if coreTags.toList.isPrefixOf tag.toList then
    "!!" ++ String.ofList (tag.toList.drop coreTags.length)
  else tag

structure NodeReader where
  lexer : Lexer
  /-- More steps than the lexer can take through the stream. -/
  steps : Nat
  /-- What the names stand for, the latest first. -/
  names : List (String × Nat) := []
  named : List (Nat × Node) := []
  references : Nat := 0
  /-- What the handles of tags stand for. -/
  handles : List (String × String) := []

abbrev Reading := StateT NodeReader Option

namespace Reading

def peek : Reading Token := do
  let r ← get
  let l ← r.lexer.fetch r.steps
  set { r with lexer := l }
  match l.tokens with
  | t :: _ => return t
  | [] => failure

def skip : Reading Unit := modify fun r => { r with lexer := r.lexer.take }

def empty (t : Token) : Node := .scalar "!!null" "" (t.line + 1)

/-- Gives a name to the node that begins here. The answer is its number. -/
def begin (anchor : Option String) : Reading (Option Nat) := do
  match anchor with
  | none => return none
  | some name =>
    let number := (← get).names.length
    modify fun r => { r with names := (name,number) :: r.names }
    return some number

def finish (number : Option Nat) (node : Node) : Reading Node := do
  match number with
  | none => return node
  | some n =>
    modify fun r => { r with named := (n,node) :: r.named }
    return node

def referenced (name : String) (line : Nat) : Reading Node := do
  let r ← get
  match r.names.lookup name with
  | some target =>
    set { r with references := r.references + 1 }
    return .reference r.references name target line
  | none => failure

def expand (t : Tag) : Reading String := do
  if t.handle.isEmpty then return t.suffix
  match (← get).handles.lookup t.handle with
  | some start => return start ++ t.suffix
  | none => failure

/-- Anchor and tag in front of a node, and the line of the first of them. -/
structure Properties where
  anchor : Option String := none
  tag : String := ""
  line : Option Nat := none

def properties : Reading Properties := do
  let t ← peek
  match t.kind with
  | .anchor a =>
    skip
    let u ← peek
    match u.kind with
    | .tag tag =>
      skip
      return ⟨some a,← expand tag,some t.line⟩
    | _ => return ⟨some a,"",some t.line⟩
  | .tag tag =>
    skip
    let u ← peek
    let anchor ← match u.kind with
      | .anchor a => do skip; pure (some a)
      | _ => pure none
    return ⟨anchor,← expand tag,some t.line⟩
  | _ => return {}

/-- The tag of a node: one that says something, or else the one implied. -/
def tagOr (tag implied : String) : String := if tag == "" || tag == "!" then implied else shortTag tag

def impliedTag (text : String) (plain : Bool) : String :=
  if !plain then "!!str"
  else if text == "<<" then "!!merge" else (meaning true text).tag

def endsEntry (k : TokenKind) : Bool := k == .key || k == .value || k == .blockEnd

mutual

/-- A node. In a `block` it may be in block form; `indentless` allows a sequence that is not indented
further than the key before it. -/
def node (block indentless : Bool) : Nat → Reading Node
  | 0 => failure
  | fuel + 1 => do
    let first ← peek
    match first.kind with
    | .reference a =>
      skip
      referenced a (first.line + 1)
    | _ =>
      let p ← properties
      let t ← peek
      let line := p.line.getD t.line + 1
      let sequence (entries : Reading (List Node)) : Reading Node := do
        let number ← begin p.anchor
        finish number (.sequence (tagOr p.tag "!!seq") (← entries) line)
      let mapping (entries : Reading (List (Node × Node))) : Reading Node := do
        let number ← begin p.anchor
        finish number (.mapping (tagOr p.tag "!!map") (← entries) line)
      let scalar (text : String) (plain : Bool) : Reading Node := do
        let number ← begin p.anchor
        finish number (.scalar (tagOr p.tag (impliedTag text plain)) text line)
      match t.kind with
      | .dash =>
        if indentless then sequence (indentlessItems fuel)
        else if p.line.isSome then scalar "" true else failure
      | .scalar text plain =>
        skip
        scalar text plain
      | .openBracket =>
        skip
        sequence (flowItems true fuel)
      | .openBrace =>
        skip
        mapping (flowPairs true fuel)
      | .sequenceStart =>
        if block then
          skip
          sequence (blockItems fuel)
        else if p.line.isSome then scalar "" true else failure
      | .mappingStart =>
        if block then
          skip
          mapping (blockPairs fuel)
        else if p.line.isSome then scalar "" true else failure
      | _ => if p.line.isSome then scalar "" true else failure

def blockItems : Nat → Reading (List Node)
  | 0 => failure
  | fuel + 1 => do
    let t ← peek
    match t.kind with
    | .dash =>
      skip
      let next ← peek
      let item ← if next.kind == .dash || next.kind == .blockEnd then pure (empty t)
        else node true false fuel
      return item :: (← blockItems fuel)
    | .blockEnd =>
      skip
      return []
    | _ => failure

def indentlessItems : Nat → Reading (List Node)
  | 0 => failure
  | fuel + 1 => do
    let t ← peek
    match t.kind with
    | .dash =>
      skip
      let next ← peek
      let item ← if next.kind == .dash || endsEntry next.kind then pure (empty t)
        else node true false fuel
      return item :: (← indentlessItems fuel)
    | _ => return []

def blockPairs : Nat → Reading (List (Node × Node))
  | 0 => failure
  | fuel + 1 => do
    let t ← peek
    match t.kind with
    | .key =>
      skip
      let next ← peek
      let key ← if endsEntry next.kind then pure (empty t) else node true true fuel
      let value ← blockValue fuel
      return (key,value) :: (← blockPairs fuel)
    | .blockEnd =>
      skip
      return []
    | _ => failure

def blockValue : Nat → Reading Node
  | 0 => failure
  | fuel + 1 => do
    let t ← peek
    match t.kind with
    | .value =>
      skip
      let next ← peek
      if endsEntry next.kind then return empty t else node true true fuel
    | _ => return empty t

def flowItems (first : Bool) : Nat → Reading (List Node)
  | 0 => failure
  | fuel + 1 => do
    let t ← peek
    if t.kind == .closeBracket then
      skip
      return []
    if !first then
      if t.kind == .comma then skip else failure
    let t ← peek
    match t.kind with
    | .closeBracket =>
      skip
      return []
    | .key =>
      skip
      let pair ← flowPair t fuel
      return pair :: (← flowItems false fuel)
    | _ =>
      let item ← node false false fuel
      return item :: (← flowItems false fuel)

/-- A single pair as an item in brackets; `t` is the token that announces its key. -/
def flowPair (t : Token) : Nat → Reading Node
  | 0 => failure
  | fuel + 1 => do
    let next ← peek
    let key ←
      if next.kind == .value || next.kind == .comma || next.kind == .closeBracket then do
        skip
        pure (empty next)
      else node false false fuel
    let colon ← peek
    let value ← if colon.kind == .value then do
        skip
        let next ← peek
        if next.kind == .comma || next.kind == .closeBracket then pure (empty next)
        else node false false fuel
      else pure (empty colon)
    return .mapping "!!map" [(key,value)] (t.line + 1)

def flowPairs (first : Bool) : Nat → Reading (List (Node × Node))
  | 0 => failure
  | fuel + 1 => do
    let t ← peek
    if t.kind == .closeBrace then
      skip
      return []
    if !first then
      if t.kind == .comma then skip else failure
    let t ← peek
    match t.kind with
    | .closeBrace =>
      skip
      return []
    | .key =>
      skip
      let next ← peek
      let key ←
        if next.kind == .value || next.kind == .comma || next.kind == .closeBrace then
          pure (empty next)
        else node false false fuel
      let colon ← peek
      let value ← if colon.kind == .value then do
          skip
          let next ← peek
          if next.kind == .comma || next.kind == .closeBrace then pure (empty next)
          else node false false fuel
        else pure (empty colon)
      return (key,value) :: (← flowPairs false fuel)
    | _ =>
      let key ← node false false fuel
      let next ← peek
      return (key,empty next) :: (← flowPairs false fuel)

end

/-- Directives in front of a document: at most one version, which must be 1.1, and no handle twice. -/
def directives : Nat → Bool → Reading Unit
  | 0, _ => failure
  | fuel + 1, versioned => do
    let t ← peek
    match t.kind with
    | .directive (.version major minor) =>
      if versioned || major != 1 || minor != 1 then failure
      skip
      directives fuel true
    | .directive (.tag handle start) =>
      if ((← get).handles.lookup handle).isSome then failure
      modify fun r => { r with handles := (handle,start) :: r.handles }
      skip
      directives fuel versioned
    | _ => return ()

def addHandles : Reading Unit :=
  modify fun r => { r with handles := r.handles ++ [("!","!"),("!!",coreTags)] }

def document (fuel : Nat) : Reading (Option Node) := do
  let t ← peek
  match t.kind with
  | .streamEnd => return none
  | .directive _ | .documentStart =>
    directives fuel false
    addHandles
    let t ← peek
    if t.kind != .documentStart then failure
    skip
    let next ← peek
    let root ← match next.kind with
      | .directive _ | .documentStart | .documentEnd | .streamEnd => pure (empty next)
      | _ => node true false fuel
    let _ ← peek
    return some root
  | _ =>
    addHandles
    let root ← node true false fuel
    let _ ← peek
    return some root

end Reading

/-- The first document of a stream: `some none` if there is none, and `none` if the stream is
malformed. What follows the document is read only as far as needed to see that it is over. -/
def firstDocument? (t : Text) : Option (Option Tree) := do
  let s := Stream.ofText t
  let size := s.chars.length + 2
  let (root,r) ←
    (Reading.document (8 * size)).run { lexer := Lexer.ofStream s,steps := size + 2 }
  return root.map fun n => { root := n,named := r.named,depth := (r.references + 1) * size }

end Yaml
end CircuitNotes
