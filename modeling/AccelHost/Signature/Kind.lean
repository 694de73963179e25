/-!
Kinds of values, of parameters and of results, and the tags that name them in a calling convention.
-/
namespace AccelHost

inductive ElemKind where
  | boolean | byte | char | short | int | long | float | double
deriving DecidableEq

namespace ElemKind

def all : List ElemKind := [boolean, byte, char, short, int, long, float, double]

def tag : ElemKind → UInt8
  | boolean => 1 | byte => 2 | char => 3 | short => 4
  | int => 5 | long => 6 | float => 7 | double => 8

def ofTag? (t : UInt8) : Option ElemKind := all.find? fun k => k.tag == t

def size : ElemKind → Nat
  | boolean | byte => 1
  | char | short => 2
  | int | float => 4
  | long | double => 8

def name : ElemKind → String
  | boolean => "boolean" | byte => "byte" | char => "char" | short => "short"
  | int => "int" | long => "long" | float => "float" | double => "double"

def letter : ElemKind → Char
  | boolean => 'Z' | byte => 'B' | char => 'C' | short => 'S'
  | int => 'I' | long => 'J' | float => 'F' | double => 'D'

def ofLetter? (c : Char) : Option ElemKind := all.find? fun k => k.letter == c

theorem ofTag?_tag (k : ElemKind) : ofTag? k.tag = some k := by cases k <;> rfl

theorem ofTag?_eq_some_iff {t : UInt8} {k : ElemKind} : ofTag? t = some k ↔ k.tag = t := by
  constructor
  · intro h
    simpa using List.find?_some h
  · rintro rfl
    exact ofTag?_tag k

theorem ofLetter?_letter (k : ElemKind) : ofLetter? k.letter = some k := by cases k <;> rfl

theorem ofLetter?_eq_some_iff {c : Char} {k : ElemKind} : ofLetter? c = some k ↔ k.letter = c := by
  constructor
  · intro h
    simpa using List.find?_some h
  · rintro rfl
    exact ofLetter?_letter k

theorem size_pos (k : ElemKind) : 0 < k.size := by cases k <;> decide

end ElemKind

/-- Kinds of one native parameter or result. -/
inductive ParamKind where
  | void
  | prim (k : ElemKind)
  | object
  | array (k : ElemKind)
  | receiver
deriving DecidableEq

namespace ParamKind

/-- The bit that turns the tag of a primitive into the tag of its arrays. -/
def arrayBit : UInt8 := 0x10

def tag : ParamKind → UInt8
  | void => 0
  | prim k => k.tag
  | object => 9
  | array k => arrayBit ||| k.tag
  | receiver => 10

def ofTag? (t : UInt8) : Option ParamKind :=
  if t = 0 then some void
  else if t = 9 then some object
  else if t = 10 then some receiver
  else if t &&& arrayBit ≠ 0 then (ElemKind.ofTag? (t &&& ~~~arrayBit)).map array
  else (ElemKind.ofTag? t).map prim

def text : ParamKind → String
  | void => "void"
  | prim k => k.name
  | object => "object"
  | array k => k.name ++ "[]"
  | receiver => "receiver"

theorem ofTag?_tag (k : ParamKind) : ofTag? k.tag = some k := by
  rcases k with _ | k | _ | k | _ <;> try cases k
  all_goals rfl

end ParamKind

end AccelHost
