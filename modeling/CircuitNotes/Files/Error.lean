import CircuitNotes.Text.Basic

/-! Why an operation on files fails. -/
namespace CircuitNotes

inductive FileFault
  | notFound
  | notFolder
  | isFolder
  | alreadyExists
  | linkLoop
  | nameTooLong
  | invalidName
  | denied
  deriving DecidableEq, Repr

def FileFault.message : FileFault → String
  | notFound => "no such file or directory"
  | notFolder => "not a directory"
  | isFolder => "is a directory"
  | alreadyExists => "file exists"
  | linkLoop => "too many levels of symbolic links"
  | nameTooLong => "file name too long"
  | invalidName => "invalid argument"
  | denied => "permission denied"

structure FileError where
  operation : String
  path : String
  fault : FileFault
  deriving DecidableEq, Repr

def FileError.message (e : FileError) : String :=
  e.operation ++ " " ++ e.path ++ ": " ++ e.fault.message

end CircuitNotes
