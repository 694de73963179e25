import AccelHost.Front.Pattern.Flags

/-!
Items of a pattern: characters, sets of characters and places, each written as it is or behind a
backslash. Which of them may stand depends on the flags: no sets and no cases beyond ASCII are
known, and no item may stand for a part of a character.
-/
namespace AccelHost.Pattern

/-- What a character or an escape stands for. -/
inductive Item where
  | literal (c : Char)
  /-- A character given by two digits. Without Unicode these are a byte. -/
  | byte (c : Char)
  /-- One of the sets of digits, blanks and word characters, or all characters outside of it. -/
  | set (negated : Bool)
  /-- An end of the text. -/
  | place
  /-- A start or an end of a word, or any place that is none. -/
  | wordBoundary
deriving DecidableEq

def Item.char? : Item → Option Char
  | .literal c | .byte c => some c
  | _ => none

def isAscii (c : Char) : Bool := c.toNat < 0x80

namespace Flags

def admits (f : Flags) : Item → Bool
  | .literal _ => !(f.unicode && f.fold)
  | .byte c => if f.unicode then !f.fold else isAscii c
  | .set negated => !f.unicode && !negated
  | .place | .wordBoundary => true

def admitsInClass (f : Flags) (c : Char) : Bool := if f.unicode then !f.fold else isAscii c

/-- Whether a class may stand for all characters outside of it. -/
def admitsNegation (f : Flags) : Bool := f.unicode

end Flags

def hexDigit? (c : Char) : Option Nat :=
  if c.isDigit then some (c.toNat - '0'.toNat)
  else if 'a' ≤ c.toLower ∧ c.toLower ≤ 'f' then some (c.toLower.toNat - 'a'.toNat + 10)
  else none

def hexNumber? (f : Flags) : Nat → Nat → List Char → Option (Nat × List Char)
  | 0, n, s => some (n, s)
  | k + 1, n, s =>
    match f.skip s with
    | [] => none
    | c :: r =>
      match hexDigit? c with
      | some d => hexNumber? f k (16 * n + d) r
      | none => none

/-- Reads the number of a character, in so many digits. -/
def coded? (f : Flags) (width : Nat) (s : List Char) : Option (Char × List Char) :=
  match hexNumber? f width 0 s with
  | some (n, r) => if n.isValidChar then some (Char.ofNat n, r) else none
  | none => none

def controls : List (Char × Char) :=
  [('a', '\x07'), ('f', '\x0c'), ('t', '\t'), ('n', '\n'), ('r', '\r'), ('v', '\x0b')]

/-- What one character stands for behind a backslash. No other letter or digit may stand there, and
no character beyond ASCII. -/
def escaped? (c : Char) : Option Item :=
  if ['d', 's', 'w'].contains c then some (.set false)
  else if ['D', 'S', 'W'].contains c then some (.set true)
  else if ['b', 'B', '<', '>'].contains c then some .wordBoundary
  else if ['A', 'z'].contains c then some .place
  else
    match controls.find? fun p => p.1 = c with
    | some (_, control) => some (.literal control)
    | none => if c.isAlphanum || !isAscii c then none else some (.literal c)

def escape? (f : Flags) : List Char → Option (Item × List Char)
  | [] => none
  | 'x' :: r => (coded? f 2 r).map fun (c, r) => (.byte c, r)
  | 'u' :: r => (coded? f 4 r).map fun (c, r) => (.literal c, r)
  | 'U' :: r => (coded? f 8 r).map fun (c, r) => (.literal c, r)
  | c :: r => (escaped? c).map fun i => (i, r)

def item? (f : Flags) : List Char → Option (Item × List Char)
  | [] => none
  | '\\' :: r => escape? f r
  | c :: r => some (.literal c, r)

end AccelHost.Pattern
