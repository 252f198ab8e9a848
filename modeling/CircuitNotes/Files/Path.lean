/-! Slash-separated paths and their lexical forms. -/
namespace CircuitNotes
namespace Path

def pieces (path : String) : List String := splitAt path.toList
where
  splitAt : List Char → List String
    | [] => [""]
    | c :: rest =>
      if c == '/' then "" :: splitAt rest
      else match splitAt rest with
        | [] => [String.singleton c]
        | piece :: more => (String.singleton c ++ piece) :: more

def isAbsolute (path : String) : Bool := path.toList.head? == some '/'

/-- The pieces kept, latest first, after one more: empty pieces and `.` say nothing, `..` takes back
the piece before it, and stays where there is none in a relative path. -/
def step (rooted : Bool) (kept : List String) (piece : String) : List String :=
  if piece == "" || piece == "." then kept
  else if piece == ".." then
    match kept with
    | [] => if rooted then [] else [".."]
    | top :: rest => if top == ".." then ".." :: kept else rest
  else piece :: kept

def cleanPieces (path : String) : List String :=
  ((pieces path).foldl (step (isAbsolute path)) []).reverse

def ofPieces (rooted : Bool) (ps : List String) : String :=
  if rooted then "/" ++ "/".intercalate ps
  else if ps.isEmpty then "." else "/".intercalate ps

/-- The shortest path that is lexically the same. -/
def clean (path : String) : String := ofPieces (isAbsolute path) (cleanPieces path)

/-- The clean path made of those elements that are not empty. -/
def join (elements : List String) : String :=
  let elements := elements.filter (· != "")
  if elements.isEmpty then "" else clean ("/".intercalate elements)

def absolute (directory path : String) : String :=
  if isAbsolute path then clean path else join [directory,path]

def upToSlash (path : String) : List Char :=
  (path.toList.reverse.dropWhile (· != '/')).reverse

def directory (path : String) : String := clean (String.ofList (upToSlash path))

/-- The last dot of the last element and what follows it. -/
def extension (path : String) : String :=
  let name := path.toList.reverse.takeWhile (· != '/')
  let tail := name.takeWhile (· != '.')
  if tail.length < name.length then String.ofList ('.' :: tail.reverse) else ""

def dropExtension (path : String) : String :=
  String.ofList (path.toList.take (path.length - (extension path).length))

def afterCommon : List String → List String → List String × List String
  | a :: as, b :: bs => if a == b then afterCommon as bs else (a :: as,b :: bs)
  | as, bs => (as,bs)

/-- A path from `base` to `target`, if both are absolute or both relative. -/
def relative? (base target : String) : Option String :=
  if isAbsolute base != isAbsolute target then none
  else
    let (up,down) := afterCommon (cleanPieces base) (cleanPieces target)
    if up.head? == some ".." then none
    else some (ofPieces false (up.map (fun _ => "..") ++ down))

end Path

/-- The place of the document of a source: under `directory`, with the extension `.md`. -/
def documentPath (directory source : String) : String :=
  Path.join [directory,Path.dropExtension source ++ ".md"]

def dataFolder (root : String) : String := Path.join [root,".circuitdoc"]

def historyPath (root : String) : String := Path.join [root,".circuitdoc","history.db"]

end CircuitNotes
