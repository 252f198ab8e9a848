import CircuitNotes.Yaml.Stream

/-! Anchors, tags and directives. -/
namespace CircuitNotes
namespace Yaml

def isNameChar (c : Char) : Bool := c.isAlphanum || c == '_' || c == '-'

def followsName : List Char → Bool
  | [] => true
  | c :: rest => endsWord (c :: rest) || "?:,]\x7d%@`".toList.contains c

def anchorName? (cs : List Char) : Option (List Char × List Char) :=
  let name := cs.takeWhile isNameChar
  let rest := cs.dropWhile isNameChar
  if name.isEmpty || !followsName rest then none else some (name,rest)

def isTagChar (c : Char) : Bool := isNameChar c || ";/?:@&=+$,.!~*'()[]".toList.contains c

/-- A run of tag characters. A percent sign and two digits stand for a byte; `due` bytes of a character
are still to come. -/
def tagBytes? : Nat → List Char → Option (Text × List Char)
  | 0, [] => some ([],[])
  | _ + 1, [] => none
  | due, '%' :: a :: b :: rest => do
    let byte := (← Text.hexValue? a) * 16 + (← Text.hexValue? b)
    let due ← match due with
      | 0 => (announced? byte).map Prod.fst
      | due + 1 => if isFollowing byte then some due else none
    let (bytes,rest) ← tagBytes? due rest
    return (byte :: bytes,rest)
  | _ + 1, _ :: _ => none
  | 0, c :: rest =>
    if c == '%' then none
    else if isTagChar c then do
      let (bytes,rest) ← tagBytes? 0 rest
      return (c.toNat.toUInt8 :: bytes,rest)
    else some ([],c :: rest)

def tagText? (cs : List Char) : Option (List Char × List Char) :=
  (tagBytes? 0 cs).map fun (bytes,rest) => (Text.chars bytes,rest)

/-- A tag: the handle that stands for the start of it, and the rest of it. -/
structure Tag where
  handle : String
  suffix : String
  deriving DecidableEq, Repr

def tag? (cs : List Char) : Option (Tag × List Char) := do
  let (tag,rest) ← match cs with
    | '<' :: more => do
      let (text,rest) ← tagText? more
      match text, rest with
      | _ :: _, '>' :: rest => some (⟨"",String.ofList text⟩,rest)
      | _, _ => none
    | _ => do
      let name := cs.takeWhile isNameChar
      match cs.dropWhile isNameChar with
      | '!' :: more => do
        let (text,rest) ← tagText? more
        if text.isEmpty then none
        else some (⟨String.ofList ('!' :: name ++ ['!']),String.ofList text⟩,rest)
      | more => do
        let (text,rest) ← tagText? more
        let suffix := name ++ text
        some (if suffix.isEmpty then ⟨"","!"⟩ else ⟨"!",String.ofList suffix⟩,rest)
  if endsWord rest then some (tag,rest) else none

inductive Directive
  | version (major minor : Nat)
  | tag (handle start : String)
  deriving DecidableEq, Repr

def versionNumber? (cs : List Char) : Option (Nat × List Char) :=
  let digits := cs.takeWhile Char.isDigit
  if digits.isEmpty || 2 < digits.length then none
  else some (digits.foldl (fun n c => n * 10 + (c.toNat - 48)) 0,cs.dropWhile Char.isDigit)

/-- The directive after its percent sign, with the rest from the end of its line on. -/
def directive? (cs : List Char) : Option (Directive × List Char) := do
  let name := String.ofList (cs.takeWhile isNameChar)
  let body := cs.dropWhile isNameChar
  if !endsWord body then none
  else
    let body := body.dropWhile isSpacing
    let (directive,rest) ← match name with
      | "YAML" => do
        let (major,rest) ← versionNumber? body
        match rest with
        | '.' :: rest => do
          let (minor,rest) ← versionNumber? rest
          some (Directive.version major minor,rest)
        | _ => none
      | "TAG" => match body with
        | '!' :: more => do
          let handle := more.takeWhile isNameChar
          let (handle,rest) ← match more.dropWhile isNameChar with
            | '!' :: rest => some ('!' :: handle ++ ['!'],rest)
            | rest => if handle.isEmpty then some (['!'],rest) else none
          match rest with
          | [] => none
          | c :: _ =>
            if !isSpacing c then none
            else do
              let (start,rest) ← tagText? (rest.dropWhile isSpacing)
              if start.isEmpty || !endsWord rest then none
              else some (Directive.tag (String.ofList handle) (String.ofList start),rest)
        | _ => none
      | _ => none
    let rest := rest.dropWhile isSpacing
    let rest := if rest.head? == some '#' then rest.dropWhile (!isBreak ·) else rest
    match rest with
    | [] => some (directive,[])
    | c :: _ => if isBreak c then some (directive,rest) else none

end Yaml
end CircuitNotes
