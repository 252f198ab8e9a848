import CircuitNotes.Files.Tree
import CircuitNotes.Glob.Match

/-! Finding the files of a folder that a selection takes. -/
namespace CircuitNotes

/-- Which files are taken, by their paths relative to the folder searched. An excluded folder, whose
path is given with a slash at its end, is not searched. -/
structure Selection where
  includes : String → Bool
  excludes : String → Bool

/-- The selection by patterns that are matched in some way; without patterns to include, all files are
included. A pattern that is found not to be well formed matches nothing. -/
def Selection.matching (outcome : String → String → Glob.Outcome) (includes excludes : List String) :
    Selection where
  includes := fun rel =>
    (if includes.isEmpty then ["**/*"] else includes).any (outcome · rel == .matched)
  excludes := fun rel => excludes.any (outcome · rel == .matched)

def Selection.ofPatterns (includes excludes : List String) : Selection :=
  .matching Glob.outcome includes excludes

/-- A file that was found: its path, its path relative to the folder searched, when it was last
changed, and its size. -/
structure FoundFile where
  path : String
  rel : String
  modified : Int
  size : Nat
  deriving DecidableEq, Repr

namespace FileTree

def relativePath (names : List String) : String := "/".intercalate names

def inside (t : FileTree) (place : List String) : List (String × FileNode) :=
  (t.below place).filterMap fun
    | ([name],node) => some (name,node)
    | _ => none

def depthBelow (t : FileTree) (place : List String) : Nat :=
  (t.below place).foldl (fun depth e => max depth e.1.length) 0

/-- The selected files at most so deep below the folder that `names` lead to from a place, folder by
folder; an excluded folder is not entered. Links are files here. -/
def visit (t : FileTree) (sel : Selection) (place : List String) : Nat → List String →
    List (List String × FileNode)
  | 0, _ => []
  | depth + 1, names => (t.inside (place ++ names)).flatMap fun (name,node) =>
    let found := names ++ [name]
    if node.isFolder then
      if sel.excludes (relativePath found ++ "/") then [] else t.visit sel place depth found
    else if sel.includes (relativePath found) && !sel.excludes (relativePath found) then [(found,node)]
    else []

/-- The selected files below a folder, or at the path itself if it is no folder, in the byte order
of their relative paths. -/
def walk (t : FileTree) (sel : Selection) (root : String) : Except FileError (List FoundFile) := do
  let root := t.absolute root
  let (place,node) ← t.statLink root
  let found := if node.isFolder then
      (t.visit sel place (t.depthBelow place) []).map fun (names,node) =>
        ⟨Path.join [root,relativePath names],relativePath names,node.modified,node.size⟩
    else if sel.includes "." && !sel.excludes "." then [⟨root,".",node.modified,node.size⟩]
    else []
  return found.mergeSort fun a b => decide (Text.ofString a.rel ≤ Text.ofString b.rel)

end FileTree
end CircuitNotes
