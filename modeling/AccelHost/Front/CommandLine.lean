import AccelHost.Front.Misuse
import AccelHost.Launcher.Options

/-!
The command line of the launcher: options, a command, and options again. Options after the command
take the place of those before it. A value that follows its option as a word of its own is looked at
only when the next option comes, or the end.
-/
namespace AccelHost.CommandLine

namespace Options

def add (o : Options) (name : OptionName) (value : String) : Except Misuse Options :=
  match name with
  | .unit => .ok { o with units := o.units ++ [value] }
  | .unitsList =>
    if o.unitsList.isSome then .error (.repeated name.shown)
    else .ok { o with unitsList := some value }
  | .searchPath =>
    if value = "" then .error (.missingValue name)
    else .ok { o with searchPath := o.searchPath ++ [value] }
  | .flag =>
    match flag? value with
    | some f => .ok { o with flags := o.flags ++ [f] }
    | none => .error (.badFlag value)
  | .log =>
    if o.log.isSome then .error (.repeated name.shown) else .ok { o with log := some value }

/-- Options before a command, where those after it come first. -/
def followedBy (o inner : Options) : Options where
  enable := o.enable || inner.enable
  units := if inner.units = [] then o.units else inner.units
  unitsList := inner.unitsList.or o.unitsList
  searchPath := if inner.searchPath = [] then o.searchPath else inner.searchPath
  flags := if inner.flags = [] then o.flags else inner.flags
  log := inner.log.or o.log

end Options

def Command.text : Command → String
  | check => "check"
  | list => "list"
  | version => "version"

def Command.ofText? (s : String) : Option Command :=
  [check, list, version].find? fun c => c.text = s

inductive Stop where
  | help
  | version
  | misuse (m : Misuse)
deriving DecidableEq

/-- A word of the command line by its form. -/
inductive Word where
  /-- Two dashes, after which no options come. -/
  | stop
  | long (name : String) (value : Option String)
  /-- Letters after one dash, of which the first decides. -/
  | short (letter : Char)
  | plain (s : String)

def Word.ofString (s : String) : Word :=
  match s.toList with
  | ['-', '-'] => .stop
  | '-' :: '-' :: rest =>
    match Text.cut '=' rest with
    | some (name, value) => .long (String.ofList name) (some (String.ofList value))
    | none => .long (String.ofList rest) none
  | '-' :: c :: _ => .short c
  | _ => .plain s

/-- Whether a name is that of an option without a value. The version is asked for before the command
only. -/
def isSwitch (outer : Bool) (name : String) : Bool :=
  name = "enable" || name = "help" || (outer && name = "version")

/-- What is wrong with a word where a command is due, or where nothing is. -/
def misplaced (outer : Bool) (w : String) : Misuse :=
  if outer && (Command.ofText? w).isNone then .unknownCommand w else .unexpected w

/-- Options on one side of the command, and the last one as long as it is not looked at. -/
structure Reading where
  options : Options := {}
  pending : Option (OptionName × Option String) := none

namespace Reading

variable (r : Reading)

def awaits : Bool :=
  match r.pending with
  | some (_, none) => true
  | _ => false

def settle : Except Stop Options :=
  match r.pending with
  | none => .ok r.options
  | some (name, some value) => (r.options.add name value).mapError .misuse
  | some (name, none) => .error (.misuse (.missingValue name))

def stopWith (s : Stop) : Stop :=
  match r.settle with
  | .error e => e
  | .ok _ => s

/-- Reads an option by its name. The version is asked for before the command only. -/
def long (outer : Bool) (name : String) (value : Option String) : Except Stop Reading :=
  match OptionName.ofText? name, value with
  | some n, none => r.settle.map fun o => ⟨o, some (n, none)⟩
  | some n, some v =>
    match r.settle with
    | .error e => .error e
    | .ok o =>
      match o.add n v with
      | .error m => .error (.misuse m)
      | .ok o => .ok ⟨o, none⟩
  | none, some v =>
    .error (.misuse (if isSwitch outer name then .surplusValue ("--" ++ name) v
      else .unexpected ("--" ++ name)))
  | none, none =>
    if name = "enable" then
      match r.settle with
      | .error e => .error e
      | .ok o =>
        if o.enable then .error (.misuse (.repeated "--enable"))
        else .ok ⟨{ o with enable := true }, none⟩
    else if name = "help" then .error (r.stopWith .help)
    else if name = "version" ∧ outer then .error (r.stopWith .version)
    else .error (.misuse (.unexpected ("--" ++ name)))

/-- Reads options by their letters. The first one decides. -/
def short (outer : Bool) (letter : Char) : Stop :=
  if letter = 'h' then r.stopWith .help
  else if letter = 'V' ∧ outer then r.stopWith .version
  else .misuse (.unexpected (String.ofList ['-', letter]))

def plain (outer : Bool) (s : String) : Except Stop Reading :=
  match r.pending with
  | some (name, none) => .ok { r with pending := some (name, some s) }
  | _ => .error (.misuse (misplaced outer s))

end Reading

def helpOn : List String → Stop
  | [] => .help
  | s :: rest =>
    if s = "help" ∨ (Command.ofText? s).isSome then
      match rest with
      | [] => .help
      | s :: _ => .misuse (.unknownCommand s)
    else .misuse (.unknownCommand s)

/-- Reads words up to a command, if `outer`, or else up to the end. -/
def read (outer : Bool) (r : Reading) :
    List String → Except Stop (Reading × Option (Command × List String))
  | [] => .ok (r, none)
  | w :: rest =>
    match if outer && !r.awaits then Command.ofText? w else none with
    | some c => .ok (r, some (c, rest))
    | none =>
      if outer && !r.awaits && w = "help" then .error (helpOn rest)
      else
        match Word.ofString w with
        | .stop =>
          match rest with
          | [] => .ok (r, none)
          | w :: _ => .error (.misuse (misplaced outer w))
        | .long name value =>
          match r.long outer name value with
          | .error e => .error e
          | .ok r => read outer r rest
        | .short letter => .error (r.short outer letter)
        | .plain s =>
          match r.plain outer s with
          | .error e => .error e
          | .ok r => read outer r rest

/-- The command and its options. What follows the command is read before the last option ahead of it
is looked at. -/
def parse (words : List String) : Except Stop (Command × Options) :=
  match read true {} words with
  | .error e => .error e
  | .ok (r, none) => .error (r.stopWith (.misuse .missingCommand))
  | .ok (r, some (command, rest)) =>
    match (read false {} rest).bind (·.1.settle) with
    | .error e => .error e
    | .ok inner => r.settle.map fun outer => (command, outer.followedBy inner)

end AccelHost.CommandLine
