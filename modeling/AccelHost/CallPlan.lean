import AccelHost.Heap.Basic
import AccelHost.Entry

/-!
Call plans: an entry lowered to native types, the arguments that a call hands over, and the value
that its result register stands for. Cells that a call refers to are pinned.
-/
namespace AccelHost

/-- An entry with its native function and the native types of its parameters and result. -/
structure CallPlan where
  entry : Entry
  func : CodeRef
  params : List NativeType
  result : NativeType
deriving DecidableEq

namespace CallPlan

/-- The plan of an entry whose native function is known. -/
def ofEntry (e : Entry) (func : CodeRef) : CallPlan :=
  ⟨e, func, e.convention.nativeTypes, NativeType.ofResult e.convention.result⟩

end CallPlan

/-- Arguments on their way to a native function: what is handed over so far, the guards that keep
its cells in place, and the heap. -/
structure Marshalled where
  args : List NativeArg := []
  guards : List Guard := []
  heap : Heap

namespace Marshalled

variable (s : Marshalled)

def push (args : List NativeArg) : Marshalled := { s with args := s.args ++ args }

def pin (r : ObjRef) (args : Guard → Option (List NativeArg)) (otherwise : DispatchError) :
    Option DispatchError × Marshalled :=
  match s.heap.pin r with
  | .error e => (some e, s)
  | .ok (g, heap) =>
    let s := { s with heap, guards := s.guards ++ [g] }
    match args g with
    | some args => (none, s.push args)
    | none => (some otherwise, s)

/-- The longest array that a native function can be given. -/
def maxLength : Nat := 1 <<< 31 - 1

/-- An array as it is handed over: its address and its length, if that fits. -/
def ofArray (g : Guard) : Option (List NativeArg) :=
  if g.length ≤ maxLength then
    some [.pointer (UInt64.ofNat g.base), .prim .int (Int32.ofNat g.length)]
  else none

def add (m : Method) (index : Nat) (kind : ParamKind) (v : Value) :
    Option DispatchError × Marshalled :=
  let mismatch := DispatchError.argumentMismatch m index kind v.kind
  match kind, v with
  | .prim k, .prim k' x => if k = k' then (none, s.push [.prim k' x]) else (some mismatch, s)
  | .receiver, .ref none => (some (.nullReceiver m), s)
  | .object, .ref none => (none, s.push [.pointer 0])
  | .receiver, .ref (some r) | .object, .ref (some r) =>
    s.pin r (fun g => some [.pointer (UInt64.ofNat g.base)]) mismatch
  | .array _, .ref none => (some (.nullArray m index), s)
  | .array k, .ref (some r) =>
    match s.heap.kind r with
    | .error e => (some e, s)
    | .ok found => if found = .array k then s.pin r ofArray mismatch else (some mismatch, s)
  | _, _ => (some mismatch, s)

/-- Hands over values for parameters in order, up to the first that does not fit. -/
def addAll (m : Method) (index : Nat) :
    List ParamKind → List Value → Marshalled → Option DispatchError × Marshalled
  | k :: ks, v :: vs, s =>
    match s.add m index k v with
    | (none, s) => addAll m (index + 1) ks vs s
    | (some e, s) => (some e, s)
  | _, _, s => (none, s)

end Marshalled

namespace CallPlan

variable (p : CallPlan)

def refResult (h : Heap) (address : UInt64) : Except DispatchError Value :=
  if address = 0 then .ok .null
  else
    match h.resolveAddress address.toNat with
    | none => .error (.unknownReference p.entry.method address)
    | some r =>
      match p.entry.convention.result with
      | .array k =>
        match h.kind r with
        | .error e => .error e
        | .ok found =>
          if found = .array k then .ok (.ref (some r))
          else .error (.returnMismatch p.entry.method k found)
      | _ => .ok (.ref (some r))

/-- The value that the result register stands for. Only its low bytes count. -/
def value (h : Heap) (register : UInt64) : Except DispatchError (Option Value) :=
  match p.result with
  | .void => .ok none
  | .prim k => .ok (some (.prim k (k.ofWord register)))
  | .pointer => (p.refResult h register).map some

/-- What a plan hands over for some values, in a heap. -/
def marshal (h : Heap) (args : List Value) : Option DispatchError × Marshalled :=
  Marshalled.addAll p.entry.method 0 p.entry.convention.nativeParams args { heap := h }

end CallPlan

end AccelHost
