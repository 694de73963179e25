import AccelHost.Kit

/-!
A sample unit with integer arithmetic: a sum of two numbers, the sum of an array, and a negation
whose function a provider gives.
-/
namespace AccelHost.Samples.Math

open Text (ForeignText)

def entry (className name descriptor native : String) (func provider : Option CodeRef)
    (tags : List UInt8) : RawEntry where
  className := .ofString className
  methodName := .ofString name
  descriptor := .ofString descriptor
  nativeName := .ofString native
  func := func
  tags := some tags
  tagCount := tags.length
  provider := provider

def entries (library : String) : List RawEntry :=
  let code (symbol : String) : Option CodeRef := some ⟨some library, symbol⟩
  [entry "demo/DylibMath" "add" "(II)I" "add" (code "add") none [5, 5, 5],
    entry "demo/DylibMath" "sum" "([I)J" "sum" (code "sum") none [0x15, 6],
    entry "demo/DylibMath" "negate" "(I)I" "dylib_negate" none (code "provide") [5, 5]]

def sumFrom (address sum : UInt64) : Nat → Behaviour UInt64
  | 0 => pure sum
  | count + 1 =>
    .ask (.load address 4) fun reply =>
      match reply with
      | .word (some w) =>
        sumFrom (address + 4) (sum + ElemKind.int.widen (ElemKind.int.ofWord w)) count
      | _ => .done sum

def native : String → Option (List NativeArg → Behaviour UInt64)
  | "add" => some fun
    | [.prim .int a, .prim .int b] => pure (ElemKind.int.widen (a + b))
    | _ => pure 0
  | "sum" => some fun
    | [.pointer a, .prim .int n] => sumFrom a 0 n.toNatClampNeg
    | _ => pure 0
  | "negate" => some fun
    | [.prim .int a] => pure (ElemKind.int.widen (-a))
    | _ => pure 0
  | _ => none

def provider (library name : String) : Behaviour (Option CodeRef) :=
  pure (if name = "dylib_negate" then some ⟨some library, "negate"⟩ else none)

def init (env : Kit.Env) : Behaviour (Except String Unit) := do
  if (← env.param "fail").isSome then return .error "asked to fail"
  env.log 4 "math dylib unit ready"
  return .ok ()

def finalize (env : Kit.Env) : Behaviour (Except String Unit) := do
  env.log 4 "math dylib unit finalized"
  return .ok ()

def unitModule (library : String) : UnitModule where
  location := library
  init := some (Kit.hook (some abiVersion) init)
  finalize := some (Kit.hook (some abiVersion) finalize)
  exports :=
    let es := entries library
    some (pure (some ⟨abiVersion, es.length, some es⟩))

end AccelHost.Samples.Math
