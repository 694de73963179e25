import AccelHost.Front.Pattern.Class
import AccelHost.Front.Pattern.Group

/-!
Regular expressions: whether a text is one. A text is read once, from its start to its end, and only
what decides about its form is kept. Counted repetitions are left out, so an open brace is never
right. Main statement: letters and digits on their own are a pattern.
-/
namespace AccelHost.Pattern

inductive Fault where
  | malformed
  /-- It is a pattern, but with a boundary between words of all scripts. -/
  | wordBoundary
deriving DecidableEq

def Fault.message : Fault → String
  | malformed => "error building NFA"
  | wordBoundary =>
    "unsupported regex feature for DFAs: cannot build DFAs for regexes with Unicode word " ++
      "boundaries; switch to ASCII word boundaries, or heuristically enable Unicode word " ++
      "boundaries or use a different regex engine"

/-- What is known after the first characters of a pattern. -/
structure Form where
  flags : Flags := {}
  /-- The names of the groups so far. -/
  names : List (List Char) := []
  /-- Whether there is a boundary between words of all scripts. -/
  wordBoundary : Bool := false
  /-- The innermost open group. The pattern as a whole is the outermost one. -/
  group : Group := {}
  /-- The groups around it. -/
  outer : List Group := []

namespace Form

def push (p : Form) (depth : Nat) : Form := { p with group := p.group.push depth }

def item? (p : Form) (i : Item) : Option Form :=
  if p.flags.admits i then
    some { p.push 0 with wordBoundary := p.wordBoundary || (i = .wordBoundary && p.flags.unicode) }
  else none

/-- A form inside of what a parenthesis starts. No two groups have the same name. -/
def opened? (p : Form) : Opening → Option Form
  | .flags f => some { p with flags := f, group := p.group.pushFlags }
  | .group f name =>
    if p.names.any fun n => name = some n then none
    else
      some { p with
        flags := f, names := name.toList ++ p.names, group := { outside := p.flags },
        outer := p.group :: p.outer }

def closed? (p : Form) : Option Form :=
  match p.outer with
  | [] => none
  | g :: gs =>
    some { p with flags := p.group.outside, group := g.push (p.group.inside + 1), outer := gs }

/-- Reads on in a pattern, with its next character and the text behind that. A question mark right
behind a repetition belongs to it. -/
def step? (p : Form) (c : Char) (r : List Char) : Option (Form × List Char) :=
  match c with
  | '(' =>
    match Opening.read? p.flags (p.flags.skip r) with
    | some (o, r) => (p.opened? o).map fun p => (p, r)
    | none => none
  | ')' => p.closed?.map fun p => (p, r)
  | '|' => some ({ p with group := p.group.branch }, r)
  | '[' => (class? p.flags r).map fun (depth, r) => (p.push depth, r)
  | '?' | '*' | '+' =>
    p.group.again?.map fun g =>
      ({ p with group := g }, if r.head? = some '?' then r.tail else r)
  | '\x7b' => none
  | '.' => if p.flags.unicode then some (p.push 0, r) else none
  | '^' | '$' => (p.item? .place).map fun p => (p, r)
  | '\\' =>
    match escape? p.flags r with
    | some (i, r) => (p.item? i).map fun p => (p, r)
    | none => none
  | c => (p.item? (.literal c)).map fun p => (p, r)

def read? : Nat → Form → List Char → Option Form
  | 0, p, s => if (p.flags.skip s).isEmpty then some p else none
  | n + 1, p, s =>
    match p.flags.skip s with
    | [] => some p
    | c :: r =>
      match p.step? c r with
      | some (p, r) => read? n p r
      | none => none

/-- What is wrong at the end of a pattern. Every group has an end, and none is too deep. -/
def fault? (p : Form) : Option Fault :=
  if !p.outer.isEmpty || depthLimit < p.group.inside then some .malformed
  else if p.wordBoundary then some .wordBoundary
  else none

end Form

/-- What is wrong with a pattern. Each step takes a character, so there are not more steps than
characters. -/
def fault? (s : List Char) : Option Fault :=
  match Form.read? s.length {} s with
  | some p => p.fault?
  | none => some .malformed

end AccelHost.Pattern
