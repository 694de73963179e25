import AccelHost.Front.Pattern.Form
import AccelHost.Text.Pieces

/-!
Filters for log messages: directives with commas between them. A directive names a target, a span in
brackets, a field of the span in braces and a level, of which each may be left out. Here a filter is
only checked. The parts of a directive are found in it without the blanks around it, and then taken
from the same places of the directive with them.
-/
namespace AccelHost.LogFilter

open Text (byteLength cut dropBytes slice split trim)

inductive Fault where
  | directive
  | level
  /-- The value of a field is no pattern that can be used. -/
  | field (f : Pattern.Fault)
deriving DecidableEq

def Fault.message : Fault → String
  | directive => "invalid filter directive"
  | level =>
    "error parsing level filter: expected one of \"off\", \"error\", \"warn\", \"info\", " ++
      "\"debug\", \"trace\", or a number 0-5"
  | field f => "invalid field filter: " ++ f.message

def levelNames : List String := ["off", "error", "warn", "info", "debug", "trace"]

def unsigned : List Char → List Char
  | '+' :: s => s
  | s => s

def numberOf? (s : List Char) : Option Nat :=
  if s.isEmpty || !s.all Char.isDigit then none
  else some (s.foldl (fun n c => 10 * n + (c.toNat - '0'.toNat)) 0)

/-- Levels go by number or by name. Without either, every message passes. -/
def isLevel (s : List Char) : Bool :=
  s.isEmpty || (numberOf? (unsigned s)).any (· ≤ 5) ||
    levelNames.any fun name => name.toList = s.map Char.toLower

/-- Whether a text is a decimal number without a sign, perhaps with an exponent. -/
def isDecimal (s : List Char) : Bool :=
  let (mantissa, exponent) := s.span fun c => c ≠ 'e' ∧ c ≠ 'E'
  let digits := mantissa.filter (· ≠ '.')
  !digits.isEmpty && digits.all Char.isDigit && mantissa.count '.' ≤ 1 &&
    match exponent with
    | [] => true
    | _ :: '-' :: e => (numberOf? e).isSome
    | _ :: e => (numberOf? (unsigned e)).isSome

def numberNames : List String := ["inf", "infinity", "nan"]

def isPlusNumber : List Char → Bool
  | '+' :: s => isDecimal s || numberNames.any fun name => name.toList = s.map Char.toLower
  | _ => false

/-- What is wrong with the value of a field. It is a number or a pattern, and without a plus sign
every number is a pattern, too. -/
def valueFault? (s : List Char) : Option Pattern.Fault :=
  if isPlusNumber s then none else Pattern.fault? s

/-- What is wrong with a field, with its value behind an equals sign. -/
def fieldFault? (s : List Char) : Option Pattern.Fault :=
  match split '=' s with
  | _ :: value :: _ => valueFault? value
  | _ => none

/-- What is wrong with a level at the end of a directive. -/
def levelFault? (part level : List Char) : Option Fault :=
  let start := byteLength (trim part) - byteLength level
  if isLevel (dropBytes start part) then none else some .level

/-- What is wrong with the rest of a directive behind a span. -/
def tailFault? (part : List Char) : List Char → Option Fault
  | [] => none
  | '=' :: level => levelFault? part level
  | _ => some .directive

/-- What is wrong with the rest of a directive behind an opening bracket. -/
def spanFault? (part s : List Char) : Option Fault :=
  match s.dropWhile fun c => c ≠ ']' ∧ c ≠ '\x7b' with
  | [] => some .directive
  | ']' :: r => tailFault? part r
  | _ :: r =>
    match cut '\x7d' r with
    | none | some ([], _) => some .directive
    | some (field, rest) =>
      let start := byteLength (trim part) - byteLength r
      match fieldFault? (slice start (byteLength field) part) with
      | some f => some (.field f)
      | none =>
        match rest with
        | ']' :: r => tailFault? part r
        | _ => some .directive

/-- Whether a target or a level may start with a character. -/
def isStart (c : Char) : Bool :=
  c = '-' || c = ':' || c = '_' || Text.isAlphanumeric c

/-- What is wrong with one directive. On its own, what is no level is a target. -/
def partFault? (part : List Char) : Option Fault :=
  match trim part with
  | [] => some .directive
  | '[' :: r => spanFault? part r
  | c :: r =>
    if !isStart c then some .directive
    else
      match r.dropWhile fun c => c ≠ '=' ∧ c ≠ '[' with
      | [] => none
      | '=' :: level => levelFault? part level
      | _ :: r => spanFault? part r

/-- The first thing that is wrong with a filter. Empty parts are passed over. -/
def fault? (filter : String) : Option Fault :=
  ((split ',' filter.toList).filter fun p => !p.isEmpty).findSome? partFault?

end AccelHost.LogFilter
