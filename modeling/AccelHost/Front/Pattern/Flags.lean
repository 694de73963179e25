import AccelHost.Text.Blank

/-!
Flags of a pattern: what it has switched on for the text behind them. With free spacing, blanks and
comments mean nothing.
-/
namespace AccelHost.Pattern

open Text (isBlank)

/-- The flags that decide about the form of a pattern. -/
structure Flags where
  /-- Characters stand for themselves and not for bytes. -/
  unicode : Bool := true
  /-- Letters stand for both of their cases. -/
  fold : Bool := false
  /-- Blanks and comments mean nothing. -/
  spaced : Bool := false
deriving DecidableEq

def flagLetters : List Char := ['i', 'm', 's', 'U', 'u', 'R', 'x']

namespace Flags

def set (f : Flags) (on : Bool) : Char → Flags
  | 'u' => { f with unicode := on }
  | 'i' => { f with fold := on }
  | 'x' => { f with spaced := on }
  | _ => f

/-- Reads letters up to a colon or a parenthesis. The ones behind a dash are switched off. None
comes twice, and the dash is not the last one. -/
def read? (f : Flags) (on : Bool) (seen : List Char) : List Char → Option (Flags × List Char)
  | [] => none
  | c :: r =>
    if c = ':' ∨ c = ')' then if seen.head? = some '-' then none else some (f, c :: r)
    else if seen.contains c then none
    else if c = '-' then read? f false (c :: seen) r
    else if flagLetters.contains c then read? (f.set on c) on (c :: seen) r
    else none

/-- A text without the blanks and comments that it starts with. A comment takes the rest of its
line. -/
def afterIdle (comment : Bool) : List Char → List Char
  | [] => []
  | c :: r =>
    if comment then afterIdle (c ≠ '\n') r
    else if isBlank c then afterIdle false r
    else if c = '#' then afterIdle true r
    else c :: r

/-- A text from the first character on that means something. -/
def skip (f : Flags) (s : List Char) : List Char := if f.spaced then afterIdle false s else s

/-- The first character that is neither a blank nor the start of a comment. -/
def aheadIdle? (comment : Bool) : List Char → Option Char
  | [] => none
  | c :: r =>
    if isBlank c then aheadIdle? comment r
    else if !comment && c = '#' then aheadIdle? true r
    else some c

/-- The character that comes next in a class. Here a comment ends with its mark. -/
def ahead? (f : Flags) (s : List Char) : Option Char :=
  if f.spaced then (aheadIdle? false s).or s.head? else s.head?

end Flags

end AccelHost.Pattern
