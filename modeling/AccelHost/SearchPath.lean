import AccelHost.StartupError

/-!
Where unit libraries are looked for: an identifier that is a path names its file, any other one is
tried in every directory under up to three file names.
-/
namespace AccelHost

/-- The directories that are searched, in order. -/
structure SearchPath where
  dirs : List String := []
deriving DecidableEq

namespace SearchPath

def librarySuffix : String := ".so"
def libraryPrefix : String := "lib"
def architecture : String := "x86-64"

def ofList (text : String) : SearchPath :=
  ⟨(Text.split ':' text.toList).map String.ofList⟩

def push (p : SearchPath) (dir : String) : SearchPath := ⟨p.dirs ++ [dir]⟩

/-- Whether an identifier is a path and so needs no search. -/
def isPath (identifier : String) : Bool :=
  identifier.toList.contains '/' || (UnitOption.afterDrive? identifier.toList).isSome ||
    librarySuffix.toList.isSuffixOf identifier.toList

/-- The file names of an identifier: for this architecture, plain, and with the library prefix. -/
def fileNames (identifier : String) : List String :=
  [identifier ++ "_" ++ architecture ++ librarySuffix, identifier ++ librarySuffix] ++
    if libraryPrefix.toList.isPrefixOf identifier.toList then []
    else [libraryPrefix ++ identifier ++ librarySuffix]

def inDir (dir name : String) : String :=
  if dir = "" ∨ dir.toList.getLast? = some '/' then dir ++ name else dir ++ "/" ++ name

/-- The files that may hold a unit, in the order in which they are tried. -/
def candidates (p : SearchPath) (identifier : String) : List String :=
  if isPath identifier then [identifier]
  else p.dirs.flatMap fun dir => (fileNames identifier).map (inDir dir)

def resolve (p : SearchPath) (isFile : String → Bool) (identifier : String) :
    Except LookupFault String :=
  match (p.candidates identifier).find? isFile with
  | some file => .ok file
  | none => .error (.searched (p.candidates identifier))

theorem candidates_push (p : SearchPath) (dir identifier : String) :
    (p.push dir).candidates identifier =
      p.candidates identifier ++
        if isPath identifier then [] else (fileNames identifier).map (inDir dir) := by
  by_cases h : isPath identifier <;> simp [candidates, push, h]

theorem resolve_eq_ok_iff {p : SearchPath} {isFile : String → Bool} {identifier file : String} :
    p.resolve isFile identifier = .ok file ↔
      (p.candidates identifier).find? isFile = some file := by
  unfold resolve
  cases h : (p.candidates identifier).find? isFile <;> simp

end SearchPath

end AccelHost
