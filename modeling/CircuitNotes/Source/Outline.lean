import CircuitNotes.Gate.Explain
import CircuitNotes.Source.Line

/-! Reading a source: the first declaration with a count that fits binds the circuit's name; after
it, every call on that name counts, one to a line. Later declarations bind nothing. -/
namespace CircuitNotes

def defaultConstructor : String := "QuantumCircuit"

def constructorOrDefault (constructor : String) : String :=
  if constructor.isEmpty then defaultConstructor else constructor

structure Declaration where
  name : Text
  qubits : Nat
  deriving DecidableEq, Repr

structure Outline where
  declaration : Option Declaration := none
  calls : List Call := []
  deriving DecidableEq, Repr

namespace Outline

def name (o : Outline) : Text := (o.declaration.map Declaration.name).getD []

def qubits (o : Outline) : Nat := (o.declaration.map Declaration.qubits).getD 0

def newline : UInt8 := 10

def lines (source : Text) : List Text := (source.splitOn newline).map Text.trim

/-- Counts from this number on are too large for a declaration to bind. -/
def countLimit : Nat := 1 <<< 63

/-- The declaration of a line, if it is one that can bind. -/
def binding? (keyword : String) (line : Text) : Option Declaration := do
  let (name,count) ← Line.declaration? keyword line
  let qubits := Numeral.valueOf 10 count
  if qubits < countLimit then some ⟨name,qubits⟩ else none

/-- The calls on `name` in lines numbered from `n`; declarations among them are passed over. -/
def callsFrom (keyword : String) (name : Text) : Nat → List Text → List Call
  | _, [] => []
  | n, line :: rest =>
    match Line.declaration? keyword line, Line.call? name line with
    | none, some (method,args) => ⟨n,method,args⟩ :: callsFrom keyword name (n + 1) rest
    | _, _ => callsFrom keyword name (n + 1) rest

/-- The outline of lines numbered from `n` in which nothing is declared yet. -/
def outlineFrom (keyword : String) : Nat → List Text → Outline
  | _, [] => {}
  | n, line :: rest =>
    match binding? keyword line with
    | some d => ⟨some d,callsFrom keyword d.name (n + 1) rest⟩
    | none => outlineFrom keyword (n + 1) rest

def ofSource (constructor : String) (source : Text) : Outline :=
  outlineFrom (constructorOrDefault constructor) 1 (lines source)

/-- The circuit and the document of an outline. Calls of unknown methods are left out. -/
def explain (s : Outline) : Explanation :=
  let known := s.calls.filterMap Call.explain?
  { circuit :=
      { name := s.name
        qubits := s.qubits
        gates := some (known.map Prod.fst) }
    document := ⟨if known.isEmpty then none else some (known.map Prod.snd)⟩ }

end Outline

def explainSource (constructor : String) (source : Text) : Explanation :=
  (Outline.ofSource constructor source).explain

end CircuitNotes
