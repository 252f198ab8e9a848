import CircuitNotes.Number.Integer
import CircuitNotes.Text.Quoted

/-! The flags of a command and the arguments that set them: `--name value`, `--name=value` and letters
behind one dash. Switches need no value. All else is an operand, and so is everything after `--`. -/
namespace CircuitNotes

inductive FlagKind
  | text
  | int
  | switch
  deriving DecidableEq, Repr

structure Flag where
  name : String
  letter : Option Char := none
  kind : FlagKind
  deriving DecidableEq, Repr

def helpFlag : Flag := ⟨"help",some 'h',.switch⟩

inductive FlagValue
  | text (s : String)
  | int (i : Int)
  | switch (b : Bool)
  deriving DecidableEq, Repr

inductive UsageError
  | badSyntax (argument : String)
  | unknownFlag (name : String)
  /-- The letter is the first byte behind the dash. -/
  | unknownLetter (letter : Char) (letters : String)
  | needsValue (argument : String)
  | letterNeedsValue (letter : Char) (letters : String)
  | badInt (value : String) (flag : Flag) (fault : Integer.Fault)
  | badSwitch (value : String) (flag : Flag)
  | notExactly (wanted got : Nat)
  | tooMany (most got : Nat)
  | unknownCommand (word place : String) (suggestions : List String)
  deriving DecidableEq, Repr

namespace Flag

def title (f : Flag) : String :=
  match f.letter with
  | some c => "-" ++ String.singleton c ++ ", --" ++ f.name
  | none => "--" ++ f.name

end Flag

namespace UsageError

def quoteLetter (c : Char) : String :=
  "'" ++ (if c == '\'' then "\\'" else if c == '"' then "\"" else String.ofList (Text.quoteChar c)) ++ "'"

def quoted (s : String) : String := (Text.ofString s).quote

def invalid (value : String) (flag : Flag) (reader fault : String) : String :=
  "invalid argument " ++ quoted value ++ " for " ++ quoted flag.title ++ " flag: strconv." ++ reader ++
    ": parsing " ++ quoted value ++ ": " ++ fault

def message : UsageError → String
  | badSyntax argument => "bad flag syntax: " ++ argument
  | unknownFlag name => "unknown flag: --" ++ name
  | unknownLetter c letters => "unknown shorthand flag: " ++ quoteLetter c ++ " in -" ++ letters
  | needsValue argument => "flag needs an argument: " ++ argument
  | letterNeedsValue c letters => "flag needs an argument: " ++ quoteLetter c ++ " in -" ++ letters
  | badInt value flag fault => invalid value flag "ParseInt" fault.message
  | badSwitch value flag => invalid value flag "ParseBool" Integer.Fault.malformed.message
  | notExactly wanted got =>
    "accepts " ++ Nat.repr wanted ++ " arg(s), received " ++ Nat.repr got
  | tooMany most got =>
    "accepts at most " ++ Nat.repr most ++ " arg(s), received " ++ Nat.repr got
  | unknownCommand word place suggestions =>
    "unknown command " ++ quoted word ++ " for " ++ quoted place ++
      if suggestions.isEmpty then ""
      else "\n\nDid you mean this?\n" ++ String.join (suggestions.map fun s => "\t" ++ s ++ "\n")

end UsageError

/-- What arguments say: values of flags, the latest first, and operands in their order. -/
structure Arguments where
  values : List (String × FlagValue) := []
  operands : List String := []
  deriving DecidableEq, Repr

namespace Arguments

def text (a : Arguments) (name : String) : String :=
  match a.values.lookup name with
  | some (.text s) => s
  | _ => ""

def int (a : Arguments) (name : String) : Int :=
  match a.values.lookup name with
  | some (.int i) => i
  | _ => 0

def switch (a : Arguments) (name : String) : Bool :=
  match a.values.lookup name with
  | some (.switch b) => b
  | _ => false

end Arguments

namespace Flag

def switch? (s : String) : Option Bool :=
  if s ∈ ["1","t","T","TRUE","true","True"] then some true
  else if s ∈ ["0","f","F","FALSE","false","False"] then some false
  else none

def read (f : Flag) (s : String) : Except UsageError FlagValue :=
  match f.kind with
  | .text => .ok (.text s)
  | .int => match Integer.readAnyBase s with
    | .ok i => .ok (.int i)
    | .error e => .error (.badInt s f e)
  | .switch => match switch? s with
    | some b => .ok (.switch b)
    | none => .error (.badSwitch s f)

def isSwitch (f : Flag) : Bool := f.kind = .switch

def byName? (flags : List Flag) (name : String) : Option Flag := flags.find? (·.name == name)

def byLetter? (flags : List Flag) (c : Char) : Option Flag := flags.find? (·.letter == some c)

def firstByte (c : Char) : Char :=
  match String.utf8EncodeChar c with
  | b :: _ => Char.ofNat b.toNat
  | [] => c

abbrev Setting := String × FlagValue

/-- The flag of an argument with two dashes, given as the characters behind them, and the arguments
after its value. -/
def readLong (flags : List Flag) (cs : List Char) (rest : List String) :
    Except UsageError (Setting × List String) := do
  if cs.head?.any (fun c => c == '-' || c == '=') then
    throw (.badSyntax ("--" ++ String.ofList cs))
  let name := String.ofList (cs.takeWhile (· != '='))
  match byName? flags name with
  | none => throw (.unknownFlag name)
  | some f =>
    match cs.dropWhile (· != '='), f.isSwitch, rest with
    | _ :: value, _, _ => return ((f.name,← f.read (String.ofList value)),rest)
    | [], true, _ => return ((f.name,← f.read "true"),rest)
    | [], false, value :: rest => return ((f.name,← f.read value),rest)
    | [], false, [] => throw (.needsValue ("--" ++ name))

def readLetters (flags : List Flag) (rest : List String) :
    List Char → Except UsageError (List Setting × List String)
  | [] => .ok ([],rest)
  | c :: more =>
    if "test.".toList.isPrefixOf (c :: more) then .ok ([],rest)
    else match byLetter? flags c with
      | none => .error (.unknownLetter (firstByte c) (String.ofList (c :: more)))
      | some f =>
        match more, f.isSwitch, rest with
        | '=' :: v :: value, _, _ => do
          return ([(f.name,← f.read (String.ofList (v :: value)))],rest)
        | _, true, _ => do
          let value ← f.read "true"
          let (settings,rest) ← readLetters flags rest more
          return ((f.name,value) :: settings,rest)
        | v :: value, false, _ => do
          return ([(f.name,← f.read (String.ofList (v :: value)))],rest)
        | [], false, value :: rest => do return ([(f.name,← f.read value)],rest)
        | [], false, [] => .error (.letterNeedsValue c (String.ofList [c]))

end Flag

namespace Arguments

/-- Reads arguments one after another; `fuel` is at least their number. -/
def readFrom (flags : List Flag) : Nat → Arguments → List String → Except UsageError Arguments
  | 0, a, _ => .ok a
  | _, a, [] => .ok a
  | fuel + 1, a, arg :: rest =>
    match arg.toList with
    | ['-','-'] => .ok { a with operands := a.operands ++ rest }
    | '-' :: '-' :: cs => do
      let (setting,rest) ← Flag.readLong flags cs rest
      readFrom flags fuel { a with values := setting :: a.values } rest
    | '-' :: c :: cs => do
      let (settings,rest) ← Flag.readLetters flags rest (c :: cs)
      readFrom flags fuel { a with values := settings.reverse ++ a.values } rest
    | _ => readFrom flags fuel { a with operands := a.operands ++ [arg] } rest

def read (flags : List Flag) (args : List String) : Except UsageError Arguments :=
  readFrom flags args.length {} args

end Arguments
end CircuitNotes
