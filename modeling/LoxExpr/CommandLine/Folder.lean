/-!
# Folders: what a path leads to

A script is named by a path, which is walked name by name from the folder the command runs in.  An empty name and `.` stay in
the folder they are met in, `..` goes up, and any other name must be found there; nothing lies below a file.  Of what lies
above the folder, and of absolute paths, no more is known than that those are folders.
-/
namespace LoxExpr
namespace CommandLine

/-- Why a script cannot be read. -/
inductive ReadError where
  | notFound
  | notFolder
  | isFolder
  | notText
deriving DecidableEq

def ReadError.reason : ReadError → String
  | notFound => "No such file or directory (os error 2)"
  | notFolder => "Not a directory (os error 20)"
  | isFolder => "Is a directory (os error 21)"
  | notText => "stream did not contain valid UTF-8"

inductive Entry where
  | file (bytes : List UInt8)
  | folder
deriving DecidableEq

/-- **A folder with all that is below it**: each entry under the names that lead to it. -/
abbrev Folder := List (List String × Entry)

/-- Where a walk has come to: a folder below the first one, one outside it, or a file. -/
inductive Place where
  | within (names : List String)
  | outside
  | file (bytes : List UInt8)
deriving DecidableEq

/-- The names in a path, the empty ones included. -/
def pathNames (path : String) : List String := (path.toList.splitOn '/').map String.ofList

namespace Folder

/-- The folder whose entries are given by their paths. -/
def ofPaths (entries : List (String × Entry)) : Folder := entries.map fun (path, e) => (pathNames path, e)

/-- The place that names lead to.  A folder is there as soon as something lies below it. -/
def place (folder : Folder) (names : List String) : Except ReadError Place :=
  match folder.lookup names with
  | some (.file bytes) => .ok (.file bytes)
  | some .folder => .ok (.within names)
  | none => if folder.any (fun e => names.isPrefixOf e.1) then .ok (.within names) else .error .notFound

/-- One name further. -/
def step (folder : Folder) (here : Place) (name : String) : Except ReadError Place :=
  match here with
  | .file _ => .error .notFolder
  | .outside => if name = "" ∨ name = "." ∨ name = ".." then .ok .outside else .error .notFound
  | .within names =>
    if name = "" ∨ name = "." then .ok (.within names)
    else if name = ".." then .ok (if names = [] then .outside else .within names.dropLast)
    else folder.place (names ++ [name])

/-- **The place that a path leads to.** -/
def walk (folder : Folder) (path : String) : Except ReadError Place :=
  match pathNames path with
  | "" :: names => names.foldlM folder.step .outside
  | names => names.foldlM folder.step (.within [])

/-- The bytes of the file that a path leads to. -/
def read (folder : Folder) (path : String) : Except ReadError (List UInt8) :=
  match folder.walk path with
  | .ok (.file bytes) => .ok bytes
  | .ok _ => .error .isFolder
  | .error e => .error e

end Folder
end CommandLine
end LoxExpr
