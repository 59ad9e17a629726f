import LiveMarkup.Text.Cut

/-!
Files by path. A tree of files answers for every path the way an operating system does: it follows the
path name by name, from the root if a slash leads and from the working folder otherwise.
-/

namespace LiveMarkup.CommandLine

open LiveMarkup.Text

inductive Unreadable where
  | missing
  | folder
  | notFolder
  | nameTooLong
  | denied
  | notText
  deriving DecidableEq, Repr

def Unreadable.message : Unreadable → String
  | .missing => "No such file or directory (os error 2)"
  | .folder => "Is a directory (os error 21)"
  | .notFolder => "Not a directory (os error 20)"
  | .nameTooLong => "File name too long (os error 36)"
  | .denied => "Permission denied (os error 13)"
  | .notText => "stream did not contain valid UTF-8"

abbrev Content := Except Unreadable String

abbrev Files := String → Content

/-- Files and folders at lists of names from the root. The folders that these are in are there too. -/
structure FileTree where
  working : List String
  folders : List (List String)
  files : List (List String × Content)

inductive Place where
  | folder (names : List String)
  | file (content : Content)

namespace FileTree

def isFolder (t : FileTree) (names : List String) : Bool :=
  names.isPrefixOf t.working || t.folders.any names.isPrefixOf
    || t.files.any fun f => names.isPrefixOf f.1

def place (t : FileTree) (names : List String) : Except Unreadable Place :=
  match t.files.lookup names with
  | some content => .ok (.file content)
  | none => if t.isFolder names then .ok (.folder names) else .error .missing

def maxNameLength : Nat := 255

def maxPathLength : Nat := 4095

/-- Follows one name. Nothing can be followed behind a file, not even the name that stays. -/
def follow (t : FileTree) (p : Place) (name : String) : Except Unreadable Place :=
  match p, name with
  | .file _, _ => .error .notFolder
  | .folder names, "" => .ok (.folder names)
  | .folder names, "." => .ok (.folder names)
  | .folder names, ".." => .ok (.folder names.dropLast)
  | .folder names, name =>
    if maxNameLength < name.utf8ByteSize then .error .nameTooLong else t.place (names ++ [name])

def parts (path : String) : List String := (splitAll '/' path.toList).map String.ofList

def start (t : FileTree) (path : String) : Place :=
  .folder (if path.startsWith "/" then [] else t.working)

def find (t : FileTree) (path : String) : Except Unreadable Place :=
  if path.isEmpty then .error .missing
  else if maxPathLength < path.utf8ByteSize then .error .nameTooLong
  else (parts path).foldlM t.follow (t.start path)

def read (t : FileTree) : Files := fun path =>
  match t.find path with
  | .ok (.file content) => content
  | .ok (.folder _) => .error .folder
  | .error e => .error e

end FileTree

end LiveMarkup.CommandLine
