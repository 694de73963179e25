import AccelHost.Text.Pieces

/-!
A tree of regular files around a current directory, each with a content, and the paths into it. A
path is walked component by component, and every directory on the way must be there, also one that
the path leaves again.
-/
namespace AccelHost

/-- Files and directories by their places, which lie below the current directory or above it. -/
structure FileTree (α : Type) where
  files : List (List String × α) := []
  dirs : List (List String) := []

namespace FileTree

variable {α : Type}

def maxPath : Nat := 4095

/-- Components of a path. Between two slashes in a row lies an empty one. -/
def components (path : String) : List String :=
  (Text.split '/' path.toList).map String.ofList

/-- The place that a component leads to. Steps above the current directory are kept. -/
def step (here : List String) (component : String) : List String :=
  if component = "" ∨ component = "." then here
  else if component = ".." then
    if here.all (· = "..") then here ++ [".."] else here.dropLast
  else here ++ [component]

/-- The places that some components come by, in order. -/
def passed (here : List String) : List String → List (List String)
  | [] => []
  | c :: rest => step here c :: passed (step here c) rest

/-- The tree with some files and directories, given by their paths. Directories on the way are made
as well, also those that the path leaves again. -/
def ofPaths (files : List (String × α)) (dirs : List String) : FileTree α where
  files := files.map fun (path, a) => ((components path).foldl step [], a)
  dirs := files.flatMap (fun (path, _) => passed [] (components path).dropLast) ++
    dirs.flatMap fun path => passed [] (components path)

variable (t : FileTree α)

/-- Whether a place is a directory. The current directory and those above it are. -/
def isDir (place : List String) : Bool := place.all (· = "..") || t.dirs.contains place

/-- The place that some components lead to, if there is a directory before each. -/
def walk (here : List String) : List String → Option (List String)
  | [] => some here
  | c :: rest => if t.isDir here then walk (step here c) rest else none

def file? (path : String) : Option α :=
  if path.toList.head? = some '/' ∨ maxPath < Text.byteLength path.toList then none
  else
    match t.walk [] (components path) with
    | none => none
    | some place => (t.files.find? fun f => f.1 = place).map (·.2)

def isFile (path : String) : Bool := (t.file? path).isSome

end FileTree

end AccelHost
