import CircuitNotes.Files.Tree
import CircuitNotes.History.Connection

/-! The file that holds a database: a signature, the number of transactions, the two buckets and a
mark at the end. Lengths have no upper bound, so every database has a file. -/
namespace CircuitNotes
namespace Storage

open MessagePack (take?)

def signature : Text := [0x00,0x43,0x4E,0x44,0x42,0x02]

def endMark : UInt8 := 0

/-- A number in groups of seven bits, the lowest first. The high bit of a byte says that another
group follows. -/
def writeCount (n : Nat) : Text :=
  if n < 128 then [n.toUInt8] else (n % 128 + 128).toUInt8 :: writeCount (n / 128)

def readCount : Text → Option (Nat × Text)
  | [] => none
  | b :: rest =>
    if b < 128 then some (b.toNat,rest)
    else do
      let (n,rest) ← readCount rest
      return (b.toNat - 128 + 128 * n,rest)

def writeBytes (t : Text) : Text := writeCount t.length ++ t

def readBytes (t : Text) : Option (Text × Text) := do
  let (n,rest) ← readCount t
  take? n rest

def writeBucket (b : Bucket Text) : Text :=
  writeCount b.length ++ b.flatMap fun e => writeBytes e.1 ++ writeBytes e.2

def readEntries : Nat → Text → Option (Bucket Text × Text)
  | 0, t => some ([],t)
  | n + 1, t => do
    let (key,rest) ← readBytes t
    let (value,rest) ← readBytes rest
    let (entries,rest) ← readEntries n rest
    return ((key,value) :: entries,rest)

def readBucket (t : Text) : Option (Bucket Text × Text) := do
  let (n,rest) ← readCount t
  readEntries n rest

def encode (c : Connection) : Text :=
  signature ++ writeCount c.revision ++ writeBucket c.database.records ++
    writeBucket c.database.settings ++ [endMark]

def decode? (content : Text) : Option Connection := do
  if content.take signature.length != signature then none
  let (revision,rest) ← readCount (content.drop signature.length)
  let (records,rest) ← readBucket rest
  let (settings,rest) ← readBucket rest
  if rest = [endMark] then
    return { database := ⟨records,settings⟩,revision := revision }
  else none

end Storage

namespace FileTree

def store (t : FileTree) (now : Int) (path : String) (c : Connection) : Except FileError FileTree :=
  t.write now path (Storage.encode c)

/-- The database that a file holds. A missing or empty file holds an empty one. -/
def databaseAt (t : FileTree) (path : String) : Except HistoryError Connection :=
  match t.read path with
  | .error e => if e.fault = .notFound then .ok {} else .error (.unopened ⟨"open",path,e.fault⟩)
  | .ok content =>
    if content.isEmpty then .ok {}
    else match Storage.decode? content with
      | some c => .ok c
      | none => .error .notDatabase

/-- Opens the database in a file, which is created where it is missing. -/
def connect (t : FileTree) (now : Int) (path : String) : Except HistoryError (Connection × FileTree) := do
  let held ← t.databaseAt path
  match t.store now path held.reopen with
  | .ok t => return (held.reopen,t)
  | .error e => throw (.unopened e)

end FileTree
end CircuitNotes
