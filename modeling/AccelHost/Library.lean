import AccelHost.Behaviour
import AccelHost.FileTree

/-!
Units in library files. A file is found through the search path and opened by its path.
-/
namespace AccelHost

/-- A regular file where a library is expected. What is in a library may depend on its path. -/
inductive LibraryFile where
  | library (module : String → UnitModule)
  | unreadable (reason : String → String)

def LibraryFile.openAt (path : String) : LibraryFile → Except LookupFault UnitModule
  | library module => .ok (module path)
  | unreadable reason => .error (.unreadable path (reason path))

/-- Library files, and the code of the functions and providers in them. -/
structure Shelf where
  files : FileTree LibraryFile
  native : CodeRef → Option (List NativeArg → Behaviour UInt64)
  provider : CodeRef → Option (String → Option CodeRef → Behaviour (Option CodeRef))

/-- The units on a shelf, found through a search path. -/
def Shelf.source (s : Shelf) (path : SearchPath) : Source where
  load option :=
    match path.resolve s.files.isFile option.identifier with
    | .error fault => .error fault
    | .ok file =>
      match s.files.file? file with
      | some f => f.openAt file
      | none => .error (.searched [file])
  contains _ := false

end AccelHost
