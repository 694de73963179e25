import AccelHost.Dispatch
import AccelHost.RegistryOps

/-!
Operations on published entries and on single ones, by the names of entries, compiled calls and
objects.
-/
namespace AccelHost

namespace Host

variable (h : Host)

def argument : Argument → Except Failure Value
  | .prim k v => .ok (.prim k v)
  | .null => .ok .null
  | .obj name =>
    match h.objects.get? name with
    | some r => .ok (.ref (some r))
    | none => .error .noLabel

def arguments : List Argument → Except Failure (List Value)
  | [] => .ok []
  | a :: rest =>
    match h.argument a with
    | .error e => .error e
    | .ok v =>
      match arguments rest with
      | .error e => .error e
      | .ok vs => .ok (v :: vs)

/-- Names an entry, and tells whether the name meant this entry before. -/
def nameEntry (e : Entry) : Option Label → Sameness × Host
  | none => (.unnamed, h)
  | some name =>
    ((h.entries.get? name).elim .new fun old => .known (old.id = e.id),
      { h with entries := h.entries.set name e })

/-- Names a compiled call, and tells whether the name meant this call before. -/
def nameCall (c : CompiledCall) : Option Label → Sameness × Host
  | none => (.unnamed, h)
  | some name =>
    ((h.calls.get? name).elim .new fun old => .known (old.id = c.id),
      { h with calls := h.calls.set name c })

end Host

namespace DispatchOp

def withReplacements (f : Replacements → Work Reply) : Work Reply := do
  match (← Work.host).replacements? with
  | some s => f s
  | none => return .error .noRuntime

def withEntry (name : Label) (f : Entry → Work Reply) : Work Reply := do
  match (← Work.host).entries.get? name with
  | some e => f e
  | none => return .error .noLabel

/-- Calls something with arguments and names the object that it returns. -/
def calling (args : List Argument) (name : Option Label)
    (f : List Value → Work (Except DispatchError (Option Value))) : Work Reply := do
  match (← Work.host).arguments args with
  | .error e => return .error e
  | .ok values =>
    match ← f values with
    | .error e => return .error (.dispatch e)
    | .ok result =>
      match name, result.bind Value.ref? with
      | some name, some r => Work.modifyHost fun h => { h with objects := h.objects.set name r }
      | _, _ => pure ()
      return .ok (.value result)

def keepCall (name : Option Label) : Except DispatchError CompiledCall → Work Reply
  | .error e => return .error (.dispatch e)
  | .ok c => do
    let (same, host) := (← Work.host).nameCall c name
    Work.modifyHost fun _ => host
    return .ok (.compiled c.plan.entry.method c.plan.params c.plan.result same)

def singleUnit : String := "libDirect_1"

variable (n : Nested)

def perform : DispatchOp → Work Reply
  | entries => withReplacements fun s => do
    let h ← Work.host
    return .ok (.entries (s.published.entries.map h.view))
  | publishedUnits => withReplacements fun s => return .ok (.snapshot s.published.units)
  | find m => withReplacements fun s => do
    let h ← Work.host
    return .ok (.found ((s.published.find? m).map h.view))
  | isNative name => withReplacements fun s => return .ok (.flag (s.published.isNativeName name))
  | resolve m isStatic name => withReplacements fun s => do
    match Dispatch.resolve s m isStatic with
    | none => return .ok (.resolved none .unnamed)
    | some e =>
      let (same, host) := (← Work.host).nameEntry e name
      Work.modifyHost fun _ => host
      return .ok (.resolved (some (host.view e)) same)
  | compile m name => withReplacements fun s => do keepCall name (← Dispatch.compile n s m)
  | compiledCount => withReplacements fun s => do
    return .ok (.count (← Dispatch.compiledCount s))
  | invoke m mode args name =>
    withReplacements fun s => calling args name (Dispatch.invoke n s m mode)
  | entry spec name => do
    match spec.entry singleUnit (← Work.fresh) with
    | .error e => return .error e
    | .ok e =>
      Work.modifyHost fun h => { h with entries := h.entries.set name e }
      return .ok (.entry ((← Work.host).view e))
  | entryInfo name => withEntry name fun e => return .ok (.entry ((← Work.host).view e))
  | nativeFunc name => withEntry name fun e => do
    return .ok (.symbol ((← Dispatch.nativeFunc n e).bind fun f =>
      if f.library.isNone then some f.symbol else none))
  | lower name => withEntry name fun e => do
    match ← Dispatch.lower n e with
    | .error e => return .error (.dispatch e)
    | .ok p => return .ok (.lowered p.params p.result)
  | compileEntry name callName => withEntry name fun e => do
    keepCall callName (← Dispatch.compileEntry n e)
  | invokeEntry name args result =>
    withEntry name fun e => calling args result (Dispatch.interpret n e)
  | call name args result => do
    match (← Work.host).calls.get? name with
    | some c => calling args result (Dispatch.call n c.plan)
    | none => return .error .noLabel

end DispatchOp

end AccelHost
