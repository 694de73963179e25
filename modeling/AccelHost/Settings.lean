import AccelHost.Flags
import AccelHost.SearchPath

/-!
Settings of a host: the units it declares, where their libraries are, and its flags.
-/
namespace AccelHost

def hostVersion : String := "0.1.0"

/-- Version of the acceleration interface that units are told. -/
def accelVersion : Nat := 1

structure Settings where
  /-- Without it, declared units are ignored. -/
  enabled : Bool := false
  /-- Unit options, in the order of their declaration. -/
  units : List String := []
  searchPath : SearchPath := {}
  vmVersion : String := "vo " ++ hostVersion
  flags : Flags := {}
deriving DecidableEq

inductive Setting where
  | enabled (on : Bool)
  | unit (option : String)
  | units (options : List String)
  | unitList (text : String)
  | searchPath (dirs : List String)
  | vmVersion (text : String)
  | flag (name value : String)
  | default

namespace Settings

def apply (c : Settings) : Setting → Settings
  | .enabled on => { c with enabled := on }
  | .unit option => { c with units := c.units ++ [option] }
  | .units options => { c with units := c.units ++ options }
  | .unitList text => { c with units := c.units ++ UnitOption.splitList text }
  | .searchPath dirs => { c with searchPath := ⟨dirs⟩ }
  | .vmVersion text => { c with vmVersion := text }
  | .flag name value => { c with flags := c.flags.define name value }
  | .default => {}

def ofList (settings : List Setting) : Settings := settings.foldl apply {}

/-- The search path of an environment setting, unless it is absent or empty. -/
def searchPathOfEnv? : Option String → Option SearchPath
  | none => none
  | some "" => none
  | some text => some (SearchPath.ofList text)

end Settings

end AccelHost
