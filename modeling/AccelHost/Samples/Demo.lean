import AccelHost.Samples.Math
import AccelHost.Text.Quoted

/-!
A sample unit that works with objects and arrays. Its parameters choose how its hooks end.
-/
namespace AccelHost.Samples.Demo

def entry (library name descriptor native : String) (tags : List UInt8) : RawEntry :=
  Math.entry "demo/Demo" name descriptor native (some ⟨some library, native⟩) none tags

def entries (library : String) : List RawEntry :=
  [entry library "mul" "(JJ)J" "mul" [6, 6, 6],
    entry library "scaled" "(S)I" "demo_scaled" [10, 4, 5],
    entry library "fill" "([BB)V" "demo_fill" [0x12, 2, 0]]

def lateEntry (library : String) : RawEntry := entry library "late" "()I" "demo_late" [5]

def fillFrom (address value : UInt64) : Nat → Behaviour UInt64
  | 0 => pure 0
  | count + 1 => .ask (.store address 1 value) fun _ => fillFrom (address + 1) value count

def native : String → Option (List NativeArg → Behaviour UInt64)
  | "mul" => some fun
    | [.prim .long a, .prim .long b] => pure (ElemKind.long.widen (a * b))
    | _ => pure 0
  | "demo_scaled" => some fun
    | [.pointer a, .prim .short b] =>
      .ask (.load a 8) fun reply =>
        match reply with
        | .word (some w) => .done (ElemKind.int.widen (ElemKind.int.ofWord w + b.toInt32))
        | _ => .done 0
    | _ => pure 0
  | "demo_fill" => some fun
    | [.pointer a, .prim .int n, .prim .byte b] =>
      fillFrom a (ElemKind.byte.toWord b) n.toNatClampNeg
    | _ => pure 0
  | "demo_late" => some fun _ => pure 7
  | _ => none

/-- An optional text as the messages of the unit show it. -/
def shown : Option String → String
  | none => "None"
  | some s => "Some(" ++ Text.quote s ++ ")"

/-- What the unit knows about itself, as its messages show it. -/
def shownInfo : Option Kit.UnitInfo → String
  | none => "None"
  | some i =>
    "Some(UnitInfo \x7b feature: " ++ Text.quote i.feature ++ ", version: " ++
      Text.quote i.version ++ ", params: " ++ Text.quote i.params ++ " \x7d)"

/-- Changes a flag and tells what it was, whether it changed, and what it is. -/
def tryFlag (name : String) : Behaviour String := do
  let before ← Kit.flag name
  let set ← Kit.setFlag name "changed"
  let after ← Kit.flag name
  return "flag " ++ shown before ++ " " ++ toString set ++ " " ++ shown after

def init (env : Kit.Env) : Behaviour (Except String Unit) := do
  if let some name ← env.param "flag" then return .error (← tryFlag name)
  if (← env.param "info").isSome then return .error (shownInfo (← env.unitInfo))
  if let some message ← env.param "fail" then return .error message
  return .ok ()

/-- Fails with the value of a parameter, if there is one. -/
def failWith (env : Kit.Env) (key : String) : Behaviour (Except String Unit) := do
  match ← env.param key with
  | some message => return .error message
  | none => return .ok ()

def postInit (library : String) (env : Kit.Env) : Behaviour (Except String Unit) := do
  let _ ← env.register (some (lateEntry library))
  failWith env "post_fail"

def unitModule (library : String) : UnitModule where
  location := library
  init := some (Kit.hook (some abiVersion) init)
  postInit := some (Kit.hook (some abiVersion) (postInit library))
  finalize := some (Kit.hook (some abiVersion) fun env => failWith env "fin_fail")
  exports :=
    let es := entries library
    some (pure (some ⟨abiVersion, es.length, some es⟩))

end AccelHost.Samples.Demo
