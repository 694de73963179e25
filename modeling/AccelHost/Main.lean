import AccelHost.Launcher.Launch
import AccelHost.Samples.Shelf

/-!
The launcher as a program, with the sample libraries for its shelf.
-/

/-- Where libraries are if the environment does not say. -/
def AccelHost.Launcher.defaultDirectory : IO String := do
  return ((← IO.appDir) / ".." / "lib" / "accel").toString

open AccelHost

def main (args : List String) : IO UInt32 := do
  let environment ←
    match Settings.searchPathOfEnv? (← IO.getEnv "VO_ACCEL_PATH") with
    | some path => pure path
    | none => do pure ⟨[← Launcher.defaultDirectory]⟩
  match Launcher.launch Samples.shelf environment args with
  | .ended code output errors =>
    IO.print output
    IO.eprint errors
    return code
  | .misuse m =>
    IO.eprint m.message
    return 2
