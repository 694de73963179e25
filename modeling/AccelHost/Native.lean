import AccelHost.Signature.Convention
import AccelHost.Value

/-!
The native side of a call: functions by where they are, the types that managed kinds lower to, and
the arguments and the register that cross over.
-/
namespace AccelHost

/-- A function of native code: the library that holds it, or none for the host program, and its
symbol there. Equal references are equal addresses. -/
structure CodeRef where
  library : Option String
  symbol : String
deriving DecidableEq

/-- Types of native parameters and results. -/
inductive NativeType where
  | void
  | prim (k : ElemKind)
  | pointer
deriving DecidableEq

namespace NativeType

def text : NativeType → String
  | void => "void"
  | prim .boolean => "u8"
  | prim .byte => "i8"
  | prim .char => "u16"
  | prim .short => "i16"
  | prim .int => "i32"
  | prim .long => "i64"
  | prim .float => "f32"
  | prim .double => "f64"
  | pointer => "pointer"

/-- The native types of one parameter. An array is a pointer and a length. -/
def ofParam : ParamKind → List NativeType
  | .void => []
  | .prim k => [prim k]
  | .object | .receiver => [pointer]
  | .array _ => [pointer, prim .int]

def ofResult : ParamKind → NativeType
  | .void => void
  | .prim k => prim k
  | .object | .receiver | .array _ => pointer

end NativeType

/-- The native types of a convention's parameters, in the order of the call. -/
def Convention.nativeTypes (c : Convention) : List NativeType :=
  c.nativeParams.flatMap NativeType.ofParam

/-- An argument as a native function gets it. The address 0 is null. -/
inductive NativeArg where
  | prim (k : ElemKind) (v : k.Val)
  | pointer (address : UInt64)
deriving DecidableEq

namespace NativeArg

def type : NativeArg → NativeType
  | prim k _ => .prim k
  | pointer _ => .pointer

def toWord : NativeArg → UInt64
  | prim k v => k.widen v
  | pointer a => a

def address? : NativeArg → Option UInt64
  | pointer a => some a
  | _ => none

end NativeArg

end AccelHost
