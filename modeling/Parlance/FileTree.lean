/-! # File trees

A tree of directories and files, as far as a program looks at it: what stands at
a path, and what a file holds. A path lists the names from the root down; the
root itself is the empty path and always a directory.

Names in a relative path are followed one by one. Reading a file walks through
the directories on the way, and `..` leads out of a directory that exists;
resolving a path does not look at the tree and takes `..` as dropping a name. -/
namespace Parlance

/-- The names from the root down. -/
abbrev Path := List String

inductive FileNode where
  | file (content : ByteArray)
  | directory

/-- What stands where; of two entries for one path the first counts. -/
structure FileTree where
  nodes : List (Path × FileNode)

inductive OpenError where
  | missing
  | isDirectory
  | notDirectory
deriving DecidableEq

/-- The names in a written path, without empty ones and those for staying. -/
def Path.names (written : String) : List String :=
  (written.splitOn "/").filter fun name => name ≠ "" && name ≠ "."

/-- Follows names from a path without looking at a tree. -/
def Path.resolve (start : Path) (names : List String) : Path :=
  names.foldl (fun path name => if name = ".." then path.dropLast else path ++ [name]) start

namespace FileTree

def empty : FileTree := ⟨[]⟩

def get? (t : FileTree) : Path → Option FileNode
  | [] => some .directory
  | path => t.nodes.lookup path

def contains (t : FileTree) (path : Path) : Bool := (t.get? path).isSome

def isFile (t : FileTree) (path : Path) : Bool :=
  match t.get? path with
  | some (.file _) => true
  | _ => false

/-- Puts a directory at a path, unless something is there. -/
def makeDirectory (t : FileTree) (path : Path) : FileTree :=
  if t.contains path then t else ⟨(path, .directory) :: t.nodes⟩

/-- The path and those above it, from the root down. -/
def pathsDown (path : Path) : List Path :=
  (List.range (path.length + 1)).map path.take

def makeDirectories (t : FileTree) (path : Path) : FileTree :=
  (pathsDown path).foldl makeDirectory t

/-- Puts a file at a path, in directories that are created as needed. -/
def writeFile (t : FileTree) (path : Path) (content : ByteArray) : FileTree :=
  ⟨(path, .file content) :: (t.makeDirectories path.dropLast).nodes⟩

/-- The path that names lead to, walking through directories that exist. -/
def walk (t : FileTree) (start : Path) : List String → Except OpenError Path
  | [] => .ok start
  | name :: names =>
    match t.get? start with
    | none => .error .missing
    | some (.file _) => .error .notDirectory
    | some .directory =>
      walk t (if name = ".." then start.dropLast else start ++ [name]) names

def readFile (t : FileTree) (start : Path) (names : List String) : Except OpenError ByteArray :=
  match t.walk start names with
  | .error e => .error e
  | .ok path =>
    match t.get? path with
    | none => .error .missing
    | some .directory => .error .isDirectory
    | some (.file content) => .ok content

end FileTree
end Parlance
