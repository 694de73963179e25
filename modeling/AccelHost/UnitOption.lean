import AccelHost.Keyed
import AccelHost.Text.Pieces
import AccelHost.Text.Quoted

/-!
Unit options, `identifier?key=value:key=value`. The identifier names a module, possibly by its path;
the last component of the path, without a library ending, is the feature and perhaps a version.
-/
namespace AccelHost

inductive OptionFault where
  | missingIdentifier
  | longIdentifier
  | invalidCharacter (c : Char)
  | noFileName
  | emptyFeature
  | longFeature
  | emptyParams
  | longParams
  | malformedParam (group : String)
  | emptyKey (group : String)
deriving DecidableEq

structure UnitOption where
  /-- The option as it was written. -/
  text : String
  identifier : String
  feature : String
  version : Option String
  rawParams : Option String
  params : Keyed String String
deriving DecidableEq

namespace UnitOption

def maxIdentifier : Nat := 4096
def maxFeature : Nat := 64
def maxVersion : Nat := 64
def maxParams : Nat := 1024

end UnitOption

namespace OptionFault

def message : OptionFault → String
  | missingIdentifier => "missing unit identifier"
  | longIdentifier => s!"identifier longer than {UnitOption.maxIdentifier} bytes"
  | invalidCharacter c => s!"identifier contains invalid character {Text.quoteChar c}"
  | noFileName => "identifier has no file name"
  | emptyFeature => "empty feature name"
  | longFeature => s!"feature name longer than {UnitOption.maxFeature} bytes"
  | emptyParams => "empty parameter list"
  | longParams => s!"parameter list longer than {UnitOption.maxParams} bytes"
  | malformedParam group => s!"malformed parameter `{group}`, expected key=value"
  | emptyKey group => s!"empty key in `{group}`"

end OptionFault

namespace UnitOption

open Text

/-- Characters that the grammar of options and of placeholders keeps for itself. -/
def reserved : List Char := ['?', '=', ':', '\x7b', '\x7d', '$', '%']

def libraryEndings : List (List Char) := [".so".toList, ".dylib".toList, ".dll".toList]

def isSeparator (c : Char) : Bool := c = '/' || c = '\\'

/-- The part of an identifier after a drive such as `C:\`, if it starts with one. -/
def afterDrive? : List Char → Option (List Char)
  | letter :: ':' :: sep :: rest => if letter.isAlpha && isSeparator sep then some rest else none
  | _ => none

def isForbidden (c : Char) : Bool := isBlank c || isControl c || reserved.contains c

/-- What is wrong with an identifier, its length before its characters. -/
def identifierFault? (identifier : List Char) : Option OptionFault :=
  if identifier = [] then some .missingIdentifier
  else if maxIdentifier < byteLength identifier then some .longIdentifier
  else (((afterDrive? identifier).getD identifier).find? isForbidden).map .invalidCharacter

/-- The last component of an identifier. Both separators count on every platform. -/
def fileName (identifier : List Char) : List Char := afterLast isSeparator identifier

def stem (name : List Char) : List Char :=
  (libraryEndings.findSome? fun ending => stripEnding? ending name).getD name

def isNumber (s : List Char) : Bool := !s.isEmpty && s.all Char.isDigit

/-- A version: a number, or two with a dot between them. -/
def isVersion (s : List Char) : Bool :=
  decide (byteLength s ≤ maxVersion) &&
    match split '.' s with
    | [major] => isNumber major
    | [major, minor] => isNumber major && isNumber minor
    | _ => false

/-- Feature and version of a stem. Without a version after its last `_` it is all feature. -/
def splitStem (s : List Char) : List Char × Option (List Char) :=
  match cutLast '_' s with
  | some (feature, version) =>
    if !feature.isEmpty && isVersion version then (feature, some version) else (s, none)
  | none => (s, none)

def parseFeature (identifier : List Char) :
    Except OptionFault (List Char × Option (List Char)) :=
  let name := fileName identifier
  if name = [] ∨ name = ['.'] ∨ name = ['.', '.'] then .error .noFileName
  else
    let (feature, version) := splitStem (stem name)
    if feature = [] then .error .emptyFeature
    else if maxFeature < byteLength feature then .error .longFeature
    else .ok (feature, version)

def parseGroup (group : List Char) : Except OptionFault (String × String) :=
  match split '=' group with
  | [key, value] =>
    if key = [] then .error (.emptyKey (String.ofList group))
    else .ok (String.ofList key, String.ofList value)
  | _ => .error (.malformedParam (String.ofList group))

def parseGroups : List (List Char) → Except OptionFault (List (String × String))
  | [] => .ok []
  | g :: gs =>
    match parseGroup g with
    | .error fault => .error fault
    | .ok kv =>
      match parseGroups gs with
      | .error fault => .error fault
      | .ok kvs => .ok (kv :: kvs)

/-- The table of some keys and values. The last value of a key counts, at the place of the first. -/
def table (kvs : List (String × String)) : Keyed String String :=
  kvs.foldl (fun t kv => Keyed.set kv.1 kv.2 t) []

def parseParams (raw : List Char) : Except OptionFault (Keyed String String) :=
  if raw = [] then .error .emptyParams
  else if maxParams < byteLength raw then .error .longParams
  else (parseGroups (split ':' raw)).map table

/-- The parts of an option before and after its first `?`. -/
def splitOption (option : List Char) : List Char × Option (List Char) :=
  match cut '?' option with
  | some (identifier, raw) => (identifier, some raw)
  | none => (option, none)

/-- Reads an option. The identifier is judged before the parameters. -/
def parse (text : String) : Except OptionFault UnitOption :=
  let (identifier, raw) := splitOption text.toList
  match identifierFault? identifier with
  | some fault => .error fault
  | none =>
    match parseFeature identifier with
    | .error fault => .error fault
    | .ok (feature, version) =>
      match (raw.map parseParams).getD (.ok []) with
      | .error fault => .error fault
      | .ok params =>
        .ok {
          text
          identifier := String.ofList identifier
          feature := String.ofList feature
          version := version.map String.ofList
          rawParams := raw.map String.ofList
          params }

def param? (u : UnitOption) (key : String) : Option String := u.params.get? key

/-- The name of the unit: its feature, and its version if there is one. -/
def displayName (u : UnitOption) : String :=
  match u.version with
  | some v => u.feature ++ "_" ++ v
  | none => u.feature

def splitList (text : String) : List String := (nonBlankLines text.toList).map String.ofList

end UnitOption

end AccelHost
