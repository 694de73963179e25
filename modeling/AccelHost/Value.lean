import AccelHost.Element
import AccelHost.Number.TwoPlaces
import AccelHost.Reference
import AccelHost.Text.Quoted

/-!
Managed values: primitives of every kind, and references to heap cells.
-/
namespace AccelHost

/-- A managed value. The reference `none` is null. -/
inductive Value where
  | prim (k : ElemKind) (v : k.Val)
  | ref (r : Option ObjRef)
deriving DecidableEq

/-- What a value is, apart from its content. -/
inductive ValueKind where
  | prim (k : ElemKind)
  | reference
deriving DecidableEq

def ValueKind.text : ValueKind → String
  | prim k => k.name
  | reference => "reference"

/-- A UTF-16 unit: the character it stands for, between quotes, or the number of a surrogate. -/
def unitText (u : UInt16) : String :=
  if h : u.toUInt32.isValidChar then Text.quoteChar ⟨u.toUInt32, h⟩
  else "\\u" ++ String.ofList (Nat.toDigits 16 u.toNat)

/-- The text of a primitive value. Longs and floats are told by a letter at the end. -/
def ElemKind.valText : (k : ElemKind) → k.Val → String
  | .boolean, v => if v then "true" else "false"
  | .byte, v => toString v.toInt
  | .char, v => unitText v
  | .short, v => toString v.toInt
  | .int, v => toString v.toInt
  | .long, v => toString v.toInt ++ "L"
  | .float, v => Number.single.twoPlaces v.toNat ++ "f"
  | .double, v => Number.double.twoPlaces v.toNat

namespace Value

def null : Value := .ref none

def kind : Value → ValueKind
  | prim k _ => .prim k
  | ref _ => .reference

def text : Value → String
  | prim k v => k.valText v
  | ref (some r) => r.text
  | ref none => "null"

def int? : Value → Option Int32
  | prim .int v => some v
  | _ => none

def long? : Value → Option Int64
  | prim .long v => some v
  | _ => none

def ref? : Value → Option ObjRef
  | ref r => r
  | _ => none

end Value

end AccelHost
