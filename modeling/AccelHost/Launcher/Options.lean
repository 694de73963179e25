import AccelHost.Settings

/-!
What the launcher may be asked for: a command, with options and their values, which make the
settings of a host.
-/
namespace AccelHost.CommandLine

inductive Command where
  | check | list | version
deriving DecidableEq

structure Options where
  enable : Bool := false
  units : List String := []
  unitsList : Option String := none
  searchPath : List String := []
  flags : List (String × String) := []
  log : Option String := none
deriving DecidableEq

/-- A flag with its value, parted by the first equals sign. -/
def flag? (s : String) : Option (String × String) :=
  match Text.cut '=' s.toList with
  | some ([], _) => none
  | some (name, value) => some (String.ofList name, String.ofList value)
  | none => none

/-- The settings of a host. The directories of the environment are searched last. -/
def Options.settings (o : Options) (environment : SearchPath) : Settings where
  enabled := o.enable
  units := o.units ++ (o.unitsList.map UnitOption.splitList).getD []
  searchPath := ⟨o.searchPath ++ environment.dirs⟩
  flags := o.flags.foldl (fun fs f => fs.define f.1 f.2) {}

end AccelHost.CommandLine
