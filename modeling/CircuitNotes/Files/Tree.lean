import CircuitNotes.Files.Error
import CircuitNotes.Files.Path

/-! Trees of files, folders and symbolic links, and the operations of a file system on them. A tree
is a list of what stands at which place; a place is the list of names that lead to it from the top. -/
namespace CircuitNotes

inductive FileNode
  | file (content : Text) (modified : Int)
  | link (target : String) (modified : Int)
  | folder
  deriving DecidableEq, Repr

namespace FileNode

def isFolder : FileNode → Bool
  | folder => true
  | _ => false

/-- The size of a link is the length of its target. -/
def size : FileNode → Nat
  | file content _ => content.length
  | link target _ => target.utf8ByteSize
  | folder => 0

/-- When the node was last changed, in seconds; folders do not tell. -/
def modified : FileNode → Int
  | file _ m => m
  | link _ m => m
  | folder => 0

end FileNode

/-- What stands at which place, and the place that relative paths start from. -/
structure FileTree where
  nodes : List (List String × FileNode) := []
  workingFolder : List String := []
  deriving DecidableEq, Repr

/-- Where a path leads. `slash` says that the path goes on with nothing but slashes, which only a
folder allows. -/
inductive Arrival
  | present (place : List String) (node : FileNode) (slash : Bool)
  /-- The last name is not there, but its folder is. -/
  | missing (place : List String) (slash : Bool)
  deriving DecidableEq, Repr

inductive Journey
  | arrived (a : Arrival)
  | failed (f : FileFault)
  /-- A link to be followed from `here`, with the names after it. -/
  | detour (here : List String) (target : String) (rest : List String)

namespace FileTree

def find? (t : FileTree) (place : List String) : Option FileNode :=
  if place.isEmpty then some .folder else t.nodes.lookup place

def set (t : FileTree) (place : List String) (node : FileNode) : FileTree :=
  { t with nodes := t.nodes.filter (fun e => e.1 != place) ++ [(place,node)] }

def nameLimit : Nat := 255

def pathLimit : Nat := 4095

def linkLimit : Nat := 40

/-- Goes from the folder `here` along names, up to the first link that must be followed. -/
def travel (t : FileTree) (follow : Bool) (here : List String) : List String → Journey
  | [] => .arrived (.present here .folder false)
  | name :: rest =>
    if name == "" || name == "." then travel t follow here rest
    else if name == ".." then travel t follow here.dropLast rest
    else if nameLimit < name.utf8ByteSize then .failed .nameTooLong
    else
      let place := here ++ [name]
      let final := rest.all (· == "")
      match t.find? place with
      | some .folder => travel t follow place rest
      | some (.link target modified) =>
        if rest.isEmpty && !follow then .arrived (.present place (.link target modified) false)
        else .detour here target rest
      | some node =>
        if final then .arrived (.present place node (!rest.isEmpty)) else .failed .notFolder
      | none => if final then .arrived (.missing place (!rest.isEmpty)) else .failed .notFound

def locateFrom (t : FileTree) (follow : Bool) : Nat → List String → List String →
    Except FileFault Arrival
  | links, here, names =>
    match t.travel follow here names with
    | .arrived a => .ok a
    | .failed f => .error f
    | .detour here target rest =>
      match links with
      | 0 => .error .linkLoop
      | links + 1 =>
        if target.isEmpty then .error .notFound
        else locateFrom t follow links (if Path.isAbsolute target then [] else here)
          (Path.pieces target ++ rest)

/-- Where a path leads; `follow` says whether a link at its end is followed. -/
def locate (t : FileTree) (follow : Bool) (path : String) : Except FileFault Arrival :=
  if path.isEmpty then .error .notFound
  else if path.toList.contains '\x00' then .error .invalidName
  else if pathLimit < path.utf8ByteSize then .error .nameTooLong
  else
    t.locateFrom follow linkLimit (if Path.isAbsolute path then [] else t.workingFolder)
      (Path.pieces path)

def absolute (t : FileTree) (path : String) : String :=
  Path.absolute (Path.ofPieces true t.workingFolder) path

def lookup (t : FileTree) (follow : Bool) (path : String) :
    Except FileFault (List String × FileNode) := do
  match ← t.locate follow path with
  | .missing _ _ => throw .notFound
  | .present place node slash => if slash then throw .notFolder else return (place,node)

def failing {α : Type} (operation path : String) (r : Except FileFault α) : Except FileError α :=
  match r with
  | .ok a => .ok a
  | .error f => .error ⟨operation,path,f⟩

def stat (t : FileTree) (path : String) : Except FileError FileNode :=
  failing "stat" path ((t.lookup true path).map Prod.snd)

/-- The place and the node that a path leads to, without following a link at its end. -/
def statLink (t : FileTree) (path : String) : Except FileError (List String × FileNode) :=
  failing "lstat" path (t.lookup false path)

def read (t : FileTree) (path : String) : Except FileError Text :=
  match t.lookup true path with
  | .ok (_,.file content _) => .ok content
  | .ok _ => .error ⟨"read",path,.isFolder⟩
  | .error f => .error ⟨"open",path,f⟩

def write (t : FileTree) (now : Int) (path : String) (content : Text) : Except FileError FileTree :=
  failing "open" path <| do
    match ← t.locate true path with
    | .present place node slash =>
      if slash || node.isFolder then throw .isFolder else return t.set place (.file content now)
    | .missing place slash =>
      if slash then throw .isFolder else return t.set place (.file content now)

def makeFolder (t : FileTree) (path : String) : Except FileError FileTree :=
  failing "mkdir" path <| do
    match ← t.locate false path with
    | .present _ _ slash => throw (if slash then .notFolder else .alreadyExists)
    | .missing place _ => return t.set place .folder

/-- Makes the folder at an absolute path, given by its names from the last to the first, and those
above it. -/
def makeFoldersAt (t : FileTree) : List String → Except FileError FileTree
  | [] => .ok t
  | name :: above =>
    let path := Path.ofPieces true (name :: above).reverse
    match t.stat path with
    | .ok node => if node.isFolder then .ok t else .error ⟨"mkdir",path,.notFolder⟩
    | .error _ => do
      let t ← t.makeFoldersAt above
      t.makeFolder path

def makeFolders (t : FileTree) (path : String) : Except FileError FileTree :=
  t.makeFoldersAt (Path.cleanPieces path).reverse

def remove (t : FileTree) (path : String) : FileTree :=
  let place := Path.cleanPieces path
  { t with nodes := t.nodes.filter fun e => !place.isPrefixOf e.1 }

def plant (t : FileTree) (path : String) (node : FileNode) : FileTree :=
  let place := Path.cleanPieces path
  let above := (List.range place.length).drop 1 |>.map place.take
  let t := above.foldl (fun t p => if (t.find? p).isSome then t else t.set p .folder) t
  t.set place node

/-- The nodes below a place, by the names that lead to them from there. -/
def below (t : FileTree) (place : List String) : List (List String × FileNode) :=
  t.nodes.filterMap fun (p,node) =>
    if place.isPrefixOf p && place.length < p.length then some (p.drop place.length,node) else none

def beyond : List (List String × FileNode) → List (List String × FileNode) →
    List (List String × FileNode)
  | e :: rest, f :: more => if e = f then beyond rest more else beyond rest (f :: more)
  | [], more => more
  | _ :: _, [] => []

def changesSince (t before : FileTree) : List (List String × FileNode) := beyond before.nodes t.nodes

@[simp] theorem changesSince_self (t : FileTree) : t.changesSince t = [] := by
  unfold changesSince
  induction t.nodes with
  | nil => rfl
  | cons e rest ih => simpa [beyond] using ih

end FileTree
end CircuitNotes
