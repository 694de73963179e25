import AccelHost.Launcher.Options
import AccelHost.Library
import AccelHost.Run

/-!
The launcher: it starts the declared units, tells about them and shuts them down. The libraries
that it uses read the command line and the log filter. They are parameters here, as is what they
find wrong with a command line.
-/
namespace AccelHost.Launcher

open CommandLine (Command Options)

inductive Ending (μ : Type) where
  | ended (code : UInt32) (output errors : String)
  | misuse (m : μ)
deriving DecidableEq

/-- What the libraries of the launcher make of its command line and of a log filter. -/
structure Front (μ : Type) where
  /-- A command with its options. Where only a text is asked for, or something is wrong, the
  launcher ends at once. -/
  parse : List String → Except (Ending μ) (Command × Options)
  /-- What is wrong with a log filter. -/
  filterFault? : String → Option String

def lines (ls : List String) : String := String.join (ls.map (· ++ "\n"))

def name : String := "vo-accel"

def versionLine : String := name ++ " " ++ hostVersion

def unitLine (u : DeclaredUnit) : String :=
  "  " ++ u.name ++ " [" ++ u.state.text ++ "] " ++ toString u.methods.length ++ " entries from " ++
    u.location.getD "?"

def summary (enabled : Bool) (r : Registry) : String :=
  if enabled then
    lines (("accel: " ++ toString r.units.length ++ " unit(s) active, " ++
      toString r.entries.length ++ " entries") :: r.units.map unitLine)
  else lines ["accel: disabled"]

def entryLine (e : Entry) : String := e.method.text ++ " -> " ++ e.unit ++ "::" ++ e.nativeName

def output (c : Command) (enabled : Bool) (r : Registry) : String :=
  match c with
  | .check => summary enabled r
  | .list => lines (r.entries.map entryLine)
  | .version => ""

def fatal (e : StartupError) : String :=
  lines [name ++ ": " ++ e.message, "Error: Could not create the virtual machine."]

def failureLine (f : String × String) : String :=
  name ++ ": finalize of `" ++ f.1 ++ "` failed: " ++ f.2

def program (shelf : Shelf) (settings : Settings) : Program where
  settings := settings
  source := shelf.source settings.searchPath
  native := shelf.native
  provider := shelf.provider
  steps := []

namespace Front

variable {μ : Type} (f : Front μ)

/-- What is printed about a log filter that is not used, as something is wrong with it. -/
def filterLine? (filter : String) : Option String :=
  (f.filterFault? filter).map fun fault =>
    name ++ ": invalid log filter `" ++ filter ++ "`: " ++ fault

/-- Starts the units, tells about them and shuts them down. -/
def session (c : Command) (o : Options) : Work (Ending μ) := do
  let n := Nested.ofDepth maxDepth
  let warning := lines (o.log.bind f.filterLine?).toList
  match ← Startup.start n with
  | .error e => return .ended 1 "" (warning ++ fatal e)
  | .ok r =>
    let report ← Startup.shutdown n r
    return .ended 0 (output c o.enable r.registry)
      (warning ++ lines (report.failures.map failureLine))

/-- What the launcher does with some words, where the environment has a search path. -/
def launch (shelf : Shelf) (environment : SearchPath) (words : List String) : Ending μ :=
  match f.parse words with
  | .error e => e
  | .ok (.version, _) =>
    .ended 0 (lines [versionLine, "accel version " ++ toString accelVersion ++ ", ABI version " ++
      toString abiVersion]) ""
  | .ok (c, o) =>
    ((f.session c o).run (.ofProgram (program shelf (o.settings environment)))).1

end Front

end AccelHost.Launcher
