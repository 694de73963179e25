import AccelHost.Method
import AccelHost.Value

/-!
Failures of a single call, of its lowering, or of one operation on the heap.
-/
namespace AccelHost

inductive Wanted where
  | array
  | arrayOf (k : ElemKind)
  | fields
deriving DecidableEq

def Wanted.text : Wanted → String
  | array => "array"
  | arrayOf k => k.name ++ "[]"
  | fields => "instance"

inductive DispatchError where
  | arityMismatch (m : Method) (expected found : Nat)
  | argumentMismatch (m : Method) (index : Nat) (expected : ParamKind) (found : ValueKind)
  | nullReceiver (m : Method)
  | nullArray (m : Method) (index : Nat)
  | unknownReference (m : Method) (address : UInt64)
  | returnMismatch (m : Method) (expected : ElemKind) (found : ObjectKind)
  | unitUnloaded (m : Method) (unit : String)
  | nativeUnavailable (m : Method) (native : String)
  | notReplaced (m : Method)
  | invalidReference (r : ObjRef)
  | stillPinned (r : ObjRef)
  | wrongKind (r : ObjRef) (wanted : Wanted) (found : ObjectKind)
  /-- More values than the array has elements. -/
  | shortArray (r : ObjRef) (values elements : Nat)
  /-- A field slot beyond the last. -/
  | noField (r : ObjRef) (index fields : Nat)
deriving DecidableEq

namespace DispatchError

def addressText (a : UInt64) : String := "0x" ++ String.ofList (Nat.toDigits 16 a.toNat)

def message : DispatchError → String
  | arityMismatch m expected found => s!"{m.text}: expected {expected} arguments, got {found}"
  | argumentMismatch m i expected found =>
    s!"{m.text}: argument {i} expected {expected.text}, got {found.text}"
  | nullReceiver m => s!"{m.text}: null receiver"
  | nullArray m i => s!"{m.text}: argument {i} is a null array"
  | unknownReference m a =>
    s!"{m.text}: returned address {addressText a} is not a managed reference"
  | returnMismatch m expected found =>
    s!"{m.text}: returned reference has kind {found.text}, expected {expected.name}[]"
  | unitUnloaded m unit => s!"{m.text}: owning unit `{unit}` is no longer loaded"
  | nativeUnavailable m native =>
    s!"{m.text}: provider returned no native function for `{native}`"
  | notReplaced m => s!"no native replacement registered for {m.text}"
  | invalidReference r => s!"stale reference {r.text}"
  | stillPinned r => s!"{r.text} is pinned"
  | wrongKind r wanted found => s!"{r.text} is {found.text}, expected {wanted.text}"
  | shortArray r values elements =>
    s!"{r.text} is {elements} elements, expected at least {values} elements"
  | noField r index fields => s!"{r.text} is {fields} fields, expected field slot {index}"

end DispatchError

end AccelHost
