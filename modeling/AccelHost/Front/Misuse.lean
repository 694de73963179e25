import AccelHost.Front.Terminal

/-!
The options of the launcher that take a value, and what may be wrong with a command line.
-/
namespace AccelHost.CommandLine

inductive OptionName where
  | unit | unitsList | searchPath | flag | log
deriving DecidableEq

def OptionName.text : OptionName → String
  | unit => "unit"
  | unitsList => "units-list"
  | searchPath => "search-path"
  | flag => "flag"
  | log => "log"

def OptionName.ofText? (s : String) : Option OptionName :=
  [unit, unitsList, searchPath, flag, log].find? fun n => n.text = s

def OptionName.valueName : OptionName → String
  | unit => "SPEC"
  | unitsList => "TEXT"
  | searchPath => "DIR"
  | flag => "NAME=VALUE"
  | log => "FILTER"

def OptionName.word (n : OptionName) : String := "--" ++ n.text

def OptionName.shown (n : OptionName) : String := n.word ++ " <" ++ n.valueName ++ ">"

inductive Misuse where
  /-- A flag that is no name with a value. -/
  | badFlag (text : String)
  | unknownCommand (word : String)
  /-- A word that has no meaning in its place. -/
  | unexpected (word : String)
  /-- A value for an option that takes none. -/
  | surplusValue (option value : String)
  | missingValue (option : OptionName)
  /-- An option that may be given once is given again. -/
  | repeated (option : String)
  | missingCommand
deriving DecidableEq

namespace Misuse

open Text.Terminal (bold marked)

/-- What is wrong, in one sentence with styles for a terminal. -/
def sentence : Misuse → String
  | badFlag text =>
    "invalid value '" ++ marked text ++ "' for '" ++ bold OptionName.flag.shown ++
      "': expected NAME=VALUE, got `" ++ text ++ "`"
  | unknownCommand word => "unrecognized subcommand '" ++ marked word ++ "'"
  | unexpected word => "unexpected argument '" ++ marked word ++ "' found"
  | surplusValue option value =>
    "unexpected value '" ++ marked value ++ "' for '" ++ bold option ++
      "' found; no more were expected"
  | missingValue option =>
    "a value is required for '" ++ bold option.shown ++ "' but none was supplied"
  | repeated option => "the argument '" ++ bold option ++ "' cannot be used multiple times"
  | missingCommand => "a subcommand is required but one was not provided"

/-- The message about a command line, as it is for a reader other than a terminal. -/
def message (m : Misuse) : String :=
  Text.Terminal.plain ("error: " ++ m.sentence ++ "\n\nFor more information, try '" ++
    bold "--help" ++ "'.\n")

end Misuse

end AccelHost.CommandLine
