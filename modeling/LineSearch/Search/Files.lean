import LineSearch.Text.Lines

namespace LineSearch

inductive FileError
  | missing
  | isDirectory
  | notDirectory
  | notPermitted
  | nameTooLong
  | nulInName
  | other (message : String)
  deriving DecidableEq

def FileError.message : FileError → String
  | missing => "No such file or directory (os error 2)"
  | isDirectory => "Is a directory (os error 21)"
  | notDirectory => "Not a directory (os error 20)"
  | notPermitted => "Permission denied (os error 13)"
  | nameTooLong => "File name too long (os error 36)"
  | nulInName => "file name contained an unexpected NUL byte"
  | other message => message

namespace Path

/-- The parts of a path between slashes, empty ones included. -/
def parts (path : String) : List String :=
  (path.toList.foldr
    (fun c parts ↦ if c = '/' then [] :: parts else Text.extendFirst c parts) [[]]).map
    String.ofList

def stays (part : String) : Bool := part == "" || part == "."

/-- The path names standard input: a hyphen, with nothing after it that leads elsewhere. -/
def isStandardInput (path : String) : Bool :=
  match parts path with
  | first :: rest => first == "-" && rest.all stays
  | [] => false

def maxNameLength : Nat := 255

def maxPathLength : Nat := 4095

end Path

inductive FileKind
  | file (content : Text.Bytes)
  | directory

/-- Members with the names that lead to them from the top. Whatever lies on the way to a member is a
directory. -/
structure FileTree where
  members : List (List String × FileKind)

namespace FileTree

def ofList (members : List (String × FileKind)) : FileTree :=
  ⟨members.map (fun (path, kind) ↦ ((Path.parts path).filter (!Path.stays ·), kind))⟩

def find? (t : FileTree) (names : List String) : Option FileKind :=
  match t.members.lookup names with
  | some kind => some kind
  | none => if t.members.any (fun m ↦ names.isPrefixOf m.1) then some .directory else none

inductive Place
  | inside (names : List String)
  | above

/-- What lies at a place. The top of the tree is a directory, and so is all that lies above it. -/
def kindAt? (t : FileTree) : Place → Option FileKind
  | .inside [] => some .directory
  | .inside names => t.find? names
  | .above => some .directory

def step (t : FileTree) (place : Place) (part : String) : Except FileError Place :=
  match t.kindAt? place with
  | some .directory =>
    if Path.stays part then .ok place
    else if Path.maxNameLength < part.utf8ByteSize then .error .nameTooLong
    else
      match place with
      | .above => if part = ".." then .ok .above else .error .missing
      | .inside names =>
        if part = ".." then .ok (if names.isEmpty then .above else .inside names.dropLast)
        else if (t.find? (names ++ [part])).isSome then .ok (.inside (names ++ [part]))
        else .error .missing
  | some (.file _) => .error .notDirectory
  | none => .error .missing

def read (t : FileTree) (path : String) : Except FileError Text.Bytes := do
  if path.isEmpty then throw .missing
  if path.toList.contains '\x00' then throw .nulInName
  if Path.maxPathLength < path.utf8ByteSize then throw .nameTooLong
  let parts := Path.parts path
  let start : Place := if parts.head? = some "" then .above else .inside []
  let place ← parts.foldlM t.step start
  match t.kindAt? place with
  | some (.file content) => pure content
  | some .directory => throw .isDirectory
  | none => throw .missing

end FileTree

end LineSearch
