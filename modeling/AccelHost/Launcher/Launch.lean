import AccelHost.Front.CommandLine
import AccelHost.Front.LogFilter
import AccelHost.Launcher.Session

/-!
The launcher as it runs, with a reader of command lines and of log filters that do what its
libraries do. Nothing is proved about them.
-/
namespace AccelHost.Launcher

open CommandLine (Misuse)

def usage : String :=
  lines
    ["Load, check and finalize native acceleration units", "",
      "Usage: " ++ name ++ " [OPTIONS] <COMMAND>", "",
      "Commands:",
      "  check    Start every declared unit, print a summary, then finalize",
      "  list     Print every replaced method and its native target",
      "  version  Print launcher and ABI versions",
      "  help     Print this message", "",
      "Options:",
      "      --enable              Enable native acceleration (off by default)",
      "      --unit <SPEC>         Declare a unit: feature_version[?key=value[:key=value]...]",
      "      --units-list <TEXT>   Declare units from a newline-separated list",
      "      --search-path <DIR>   Directory searched for unit libraries",
      "      --flag <NAME=VALUE>   Define a host flag units can read and set",
      "      --log <FILTER>        Log filter",
      "  -h, --help                Print help",
      "  -V, --version             Print version"]

def front : Front Misuse where
  parse words := (CommandLine.parse words).mapError fun
    | .help => .ended 0 usage ""
    | .version => .ended 0 (lines [versionLine]) ""
    | .misuse m => .misuse m
  filterFault? filter := (LogFilter.fault? filter).map (·.message)

/-- What the launcher does with some words, where the environment has a search path. -/
def launch (shelf : Shelf) (environment : SearchPath) (words : List String) : Ending Misuse :=
  front.launch shelf environment words

end AccelHost.Launcher
