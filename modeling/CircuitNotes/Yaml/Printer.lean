import CircuitNotes.Text.Quoted
import CircuitNotes.Yaml.Character
import CircuitNotes.Yaml.Meaning

/-! Documents of two levels in writing: sections, with texts, numbers, truth values and lists of
texts in them. A text is written plainly where it reads back as itself, between quotes otherwise, and
line by line if it has several lines. -/
namespace CircuitNotes
namespace Yaml
namespace Printer

/-! ### Which styles a text allows -/

def isPrintable (c : Char) : Bool :=
  let n := c.toNat
  n == 0xA || (0x20 ≤ n && n ≤ 0x7E) || (0xA0 ≤ n && n ≤ 0xD7FF) ||
    (0xE000 ≤ n && n ≤ 0xFFFD && n != 0xFEFF)

/-- Whether somewhere a character of the first kind stands directly before one of the second. -/
def hasAdjacent (p q : Char → Bool) : List Char → Bool
  | a :: b :: rest => (p a && q b) || hasAdjacent p q (b :: rest)
  | _ => false

/-- Whether a colon ends a word somewhere: it would end a key. -/
def hasKeyEnd : List Char → Bool
  | [] => false
  | c :: rest =>
    (c == ':' && (match rest with
      | d :: _ => isSpacing d
      | [] => true)) || hasKeyEnd rest

def startsOtherwise : List Char → Bool
  | '-' :: '-' :: '-' :: _ => true
  | '.' :: '.' :: '.' :: _ => true
  | c :: rest =>
    "#,[]\x7b\x7d&*!|>'\"%@`".contains c ||
      ((c == '-' || c == '?') && match rest with
        | d :: _ => isSpacing d
        | [] => true)
  | [] => false

/-- Spaces at line ends, or at their beginnings, are lost between single quotes, and so is all that
needs an escape. -/
def allowsSingle (cs : List Char) : Bool :=
  cs.all isPrintable && !hasAdjacent (· == ' ') isBreak cs && !hasAdjacent isBreak (· == ' ') cs

def allowsPlain (cs : List Char) : Bool :=
  allowsSingle cs && !cs.any isBreak && cs.head? != some ' ' && cs.getLast? != some ' ' &&
    !startsOtherwise cs && !hasKeyEnd cs &&
    !hasAdjacent isSpacing (· == '#') cs

def allowsLiteral (cs : List Char) : Bool :=
  !cs.isEmpty && cs.getLast? != some ' ' && cs.all (fun c => isPrintable c || c == '\t') &&
    !hasAdjacent (· == ' ') isBreak cs

def isSixtieth : List Char → Bool
  | [d] => d.isDigit
  | [t,d] => '0' ≤ t && t ≤ '5' && d.isDigit
  | _ => false

def areSixtieths : List (List Char) → Bool
  | [] => false
  | [last] =>
    isSixtieth (last.takeWhile (· != '.')) &&
      ((last.dropWhile (· != '.')).drop 1).all fun c => c.isDigit || c == '_'
  | piece :: rest => isSixtieth piece && areSixtieths rest

/-- Whether a text is a number to base sixty, which some readers know. -/
def isSexagesimal (s : String) : Bool :=
  let cs := match s.toList with
    | c :: rest => if c == '+' || c == '-' then rest else c :: rest
    | [] => []
  match cs.splitOn ':' with
  | whole :: parts =>
    (whole.head?.any Char.isDigit) && whole.all (fun c => c.isDigit || c == '_') && areSixtieths parts
  | [] => false

/-- The words that some readers take for truth values. -/
def isOldBool (s : String) : Bool :=
  s ∈ ["y","Y","yes","Yes","YES","on","On","ON","n","N","no","No","NO","off","Off",
    "OFF"]

inductive Style
  | plain
  | single
  | double
  | literal
  deriving DecidableEq, Repr

def styleOf (s : String) : Style :=
  let cs := s.toList
  if cs.contains '\n' then (if allowsLiteral cs then .literal else .double)
  else if meaning true s == .text && !isSexagesimal s && !isOldBool s then
    if allowsPlain cs then .plain else if allowsSingle cs then .single else .double
  else .double

/-! ### The styles -/

def escape (c : Char) : List Char :=
  let hex (width : Nat) : List Char := (Text.hexDigits width c.toNat).map Char.toUpper
  '\\' :: match c.toNat with
    | 0x00 => ['0']
    | 0x07 => ['a']
    | 0x08 => ['b']
    | 0x09 => ['t']
    | 0x0A => ['n']
    | 0x0B => ['v']
    | 0x0C => ['f']
    | 0x0D => ['r']
    | 0x1B => ['e']
    | 0x22 => ['"']
    | 0x5C => ['\\']
    | 0x85 => ['N']
    | 0xA0 => ['_']
    | 0x2028 => ['L']
    | 0x2029 => ['P']
    | n => if n ≤ 0xFF then 'x' :: hex 2 else if n ≤ 0xFFFF then 'u' :: hex 4 else 'U' :: hex 8

def standsAlone (c : Char) : Bool := isPrintable c && !isBreak c && c != '"' && c != '\\'

/-- A text between double quotes. Behind a byte order mark at its start every character is escaped. -/
def double (cs : List Char) : List Char :=
  let marked := cs.head? == some byteOrderMark
  '"' :: cs.flatMap (fun c => if standsAlone c && !marked then [c] else escape c) ++ ['"']

/-- Characters over several lines, each but the first indented where it has content. `fresh` says that
a line has just begun. -/
def indented (width : Nat) : Bool → List Char → List Char
  | _, [] => []
  | fresh, c :: rest =>
    if isBreak c then c :: indented width true rest
    else (if fresh then List.replicate width ' ' else []) ++ c :: indented width false rest

def single (width : Nat) (cs : List Char) : List Char :=
  '\'' :: indented width false (cs.flatMap fun c => if c == '\'' then ['\'','\''] else [c]) ++ ['\'']

/-- What stands behind the bar: how far a text is indented that starts blank, and what becomes of its
last line ends. -/
def literalHints (cs : List Char) : List Char :=
  (if cs.head?.any (fun c => c == ' ' || isBreak c) then ['4'] else []) ++
    match cs.reverse with
    | c :: rest =>
      if !isBreak c then ['-']
      else if rest.isEmpty || rest.head?.any isBreak then ['+'] else []
    | [] => ['-']

/-- A text line by line. A line end at its start is the one behind the bar. -/
def literal (width : Nat) (cs : List Char) : List Char :=
  '|' :: literalHints cs ++
    (if cs.head?.any isBreak then [] else ['\n']) ++ indented width true cs

def text (width : Nat) (s : String) : List Char :=
  match styleOf s with
  | .plain => s.toList
  | .single => single width s.toList
  | .double => double s.toList
  | .literal => literal width s.toList

/-! ### Documents -/

inductive Value
  | text (s : String)
  | int (i : Int)
  | bool (b : Bool)
  | texts (items : List String)
  deriving DecidableEq, Repr

def endLine (cs : List Char) : List Char := if cs.getLast?.any isBreak then cs else cs ++ ['\n']

def value : Value → List Char
  | .text s => ' ' :: endLine (text 8 s)
  | .int i => (if i < 0 then " -" else " ").toList ++ (Nat.repr i.natAbs).toList ++ ['\n']
  | .bool b => (if b then " true\n" else " false\n").toList
  | .texts [] => " []\n".toList
  | .texts items => '\n' :: items.flatMap fun s => "        - ".toList ++ endLine (text 10 s)

def sectionText (name : String) (pairs : List (String × Value)) : List Char :=
  name.toList ++ ':' :: '\n' :: pairs.flatMap fun (key,v) =>
    "    ".toList ++ key.toList ++ ':' :: value v

def document (sections : List (String × List (String × Value))) : String :=
  String.ofList (sections.flatMap fun (name,pairs) => sectionText name pairs)

end Printer
end Yaml
end CircuitNotes
