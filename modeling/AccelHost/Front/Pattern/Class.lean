import AccelHost.Front.Pattern.Group
import AccelHost.Front.Pattern.Item
import AccelHost.Text.Pieces

/-!
Classes of characters, in brackets. A class holds items, ranges, named classes and further classes,
with operators between them. A text is read with the brackets that are open, the innermost first.
-/
namespace AccelHost.Pattern

open Text (cut)

def classNames : List String :=
  ["alnum", "alpha", "ascii", "blank", "cntrl", "digit", "graph", "lower", "print", "punct",
    "space", "upper", "word", "xdigit"]

/-- Reads a named class behind its bracket, and whether it is negated. -/
def namedClass? : List Char → Option (Bool × List Char)
  | ':' :: r =>
    let negated := r.head? = some '^'
    match cut ':' (if negated then r.tail else r) with
    | some (name, ']' :: rest) =>
      if classNames.contains (String.ofList name) then some (negated, rest) else none
    | _ => none
  | _ => none

def Flags.admitsNamed (f : Flags) (negated : Bool) : Bool := if f.unicode then !f.fold else !negated

def Flags.admitsItem (f : Flags) : Item → Bool
  | .literal c | .byte c => f.admitsInClass c
  | .set negated => f.admits (.set negated)
  | .place | .wordBoundary => false

def Flags.admitsRange (f : Flags) (first last : Item) : Bool :=
  match first.char?, last.char? with
  | some a, some b => a ≤ b && f.admitsInClass a && f.admitsInClass b
  | _, _ => false

/-- Reads an item or a range in a class. A dash with a bracket or another dash behind it makes no
range. -/
def element? (f : Flags) (s : List Char) : Option (List Char) :=
  match item? f s with
  | none => none
  | some (first, r) =>
    let single (r : List Char) := if f.admitsItem first then some r else none
    match f.skip r with
    | [] => none
    | '-' :: r =>
      if [']', '-'].any fun c => f.ahead? r = some c then single ('-' :: r)
      else
        match item? f (f.skip r) with
        | some (last, r) => if f.admitsRange first last then some r else none
        | none => none
    | r => single r

structure Bracket where
  /-- The depths of the parts since the last operator, the last one first. -/
  parts : List Nat := []
  /-- The depth of what stands to the left of that operator. -/
  left : Option Nat := none
  /-- Whether there are only dashes so far. -/
  opening : Bool := true

namespace Bracket

def push (b : Bracket) (depth : Nat) : Bracket :=
  { b with parts := depth :: b.parts, opening := false }

def inside (b : Bracket) : Nat :=
  match b.left with
  | none => depthOf b.parts
  | some d => max d (depthOf b.parts) + 1

def operate (b : Bracket) : Bracket where
  left := some b.inside
  opening := false

def open? (f : Flags) (outer : List Bracket) (s : List Char) :
    Option (List Bracket × List Char) :=
  match f.skip s with
  | '^' :: r => if f.admitsNegation then some ({} :: outer, r) else none
  | r => some ({} :: outer, r)

/-- Reads on in the first of some brackets. Dashes at its start and a closing bracket right at its
start stand for themselves. -/
def step? (f : Flags) (b : Bracket) (outer : List Bracket) (s : List Char) :
    Option (List Bracket × List Char) :=
  let element (s : List Char) := (element? f s).map fun r => (b.push 0 :: outer, r)
  let itself (c : Char) (opening : Bool) (r : List Char) :=
    if f.admitsInClass c then some ({ b.push 0 with opening := opening } :: outer, r) else none
  match s with
  | '-' :: r =>
    if b.opening then itself '-' true r
    else if r.head? = some '-' then some (b.operate :: outer, r.tail)
    else element s
  | ']' :: r =>
    if b.opening && b.parts.isEmpty then itself ']' false r
    else
      match outer with
      | [] => none
      | o :: os => some (o.push (b.inside + 1) :: os, r)
  | '[' :: r =>
    match namedClass? r with
    | some (negated, r) =>
      if f.admitsNamed negated then some (b.push 0 :: outer, r) else none
    | none => open? f (b :: outer) r
  | '&' :: '&' :: r | '~' :: '~' :: r => some (b.operate :: outer, r)
  | s => element s

end Bracket

/-- Reads up to the bracket that closes the first one, which is in the last one of some brackets. -/
def classEnd? (f : Flags) : Nat → List Bracket → List Char → Option (Nat × List Char)
  | n + 1, b :: o :: outer, s =>
    match b.step? f (o :: outer) (f.skip s) with
    | some (brackets, r) => classEnd? f n brackets r
    | none => none
  | _, [b], s => some (b.inside, s)
  | _, _, _ => none

/-- Reads a class behind its bracket: its depth and the rest. Each step takes a character, so there
are not more steps than characters. -/
def class? (f : Flags) (s : List Char) : Option (Nat × List Char) :=
  match Bracket.open? f [{}] s with
  | some (brackets, r) => classEnd? f r.length brackets r
  | none => none

end AccelHost.Pattern
