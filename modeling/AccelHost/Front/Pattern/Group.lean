import AccelHost.Front.Pattern.Flags
import AccelHost.Front.Alphanumeric

/-!
Groups of a pattern, in parentheses: what stands at their start, and what is known of an open one.
-/
namespace AccelHost.Pattern

open Text (isAlphabetic isAlphanumeric)

/-- The depth of several parts together. Only from two parts on they are one level deeper than the
deepest of them. -/
def depthOf : List Nat → Nat
  | [] => 0
  | [d] => d
  | d :: ds => ds.foldl max d + 1

def depthLimit : Nat := 250

inductive Opening where
  /-- Flags for the rest of the group around them. -/
  | flags (f : Flags)
  /-- A group with flags of its own, and perhaps a name. -/
  | group (f : Flags) (name : Option (List Char))

def isGroupName : List Char → Bool
  | [] => false
  | c :: r =>
    (c = '_' || isAlphabetic c) &&
      r.all fun c => ['_', '.', '[', ']'].contains c || isAlphanumeric c

def groupName? (f : Flags) (s : List Char) : Option (Opening × List Char) :=
  let (name, r) := s.span (· ≠ '>')
  if isGroupName name && !r.isEmpty then some (.group f (some name), r.tail) else none

/-- Reads the start of a group, or flags, behind the parenthesis. Nothing can be looked for ahead of
a place or before it. -/
def Opening.read? (f : Flags) : List Char → Option (Opening × List Char)
  | '?' :: 'P' :: '<' :: r | '?' :: '<' :: r => groupName? f r
  | '?' :: ')' :: _ => none
  | '?' :: r =>
    match f.read? true [] r with
    | some (f, ':' :: r) => some (.group f none, r)
    | some (f, ')' :: r) => some (.flags f, r)
    | _ => none
  | r => some (.group f none, r)

structure Group where
  /-- The flags that hold again behind it. -/
  outside : Flags := {}
  /-- The depths of the branches that have ended. -/
  branches : List Nat := []
  /-- The depths of the parts of the last branch, the last one first. -/
  parts : List Nat := []
  /-- Whether the last part can be repeated. -/
  repeatable : Bool := false

namespace Group

def push (g : Group) (depth : Nat) : Group :=
  { g with parts := depth :: g.parts, repeatable := true }

/-- A group with flags in it. These cannot be repeated. -/
def pushFlags (g : Group) : Group := { g.push 0 with repeatable := false }

def again? (g : Group) : Option Group :=
  match g.repeatable, g.parts with
  | true, d :: ds => some { g with parts := (d + 1) :: ds }
  | _, _ => none

def branch (g : Group) : Group where
  outside := g.outside
  branches := depthOf g.parts :: g.branches

def inside (g : Group) : Nat := depthOf (g.branch.branches)

end Group

end AccelHost.Pattern
