import AccelHost.Library
import AccelHost.Samples.Demo

/-!
A shelf of sample libraries: the two sample units under several names, a file that is no library and
a directory with the name of one.
-/
namespace AccelHost.Samples

def files : FileTree LibraryFile :=
  .ofPaths
    [("units/libMathDylibAccel_1.so", .library Math.unitModule),
      ("more/libMathDylibAccel_1_x86-64.so", .library Math.unitModule),
      ("units/libDemoAccel_2.so", .library Demo.unitModule),
      ("more/libPrefixed_1.so", .library Demo.unitModule),
      ("units/libBroken_1.so", .unreadable fun path => path ++ ": invalid ELF header")]
    ["units/libDir_1.so"]

def native (ref : CodeRef) : Option (List NativeArg → Behaviour UInt64) :=
  if ref.library.isNone then none else (Math.native ref.symbol).or (Demo.native ref.symbol)

def provider (ref : CodeRef) : Option (String → Option CodeRef → Behaviour (Option CodeRef)) :=
  match ref.library with
  | some library =>
    if ref.symbol = "provide" then some fun name _ => Math.provider library name else none
  | none => none

def shelf : Shelf := ⟨files, native, provider⟩

end AccelHost.Samples
