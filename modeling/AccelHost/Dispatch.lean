import AccelHost.Machine

/-!
Calls of replaced methods. An entry is lowered to a plan, for each call or once for all calls, and
the plan is called: arguments are handed over, the native function runs while their cells are
pinned, and its register becomes a managed value.
-/
namespace AccelHost.Dispatch

variable (n : Nested)

/-- Asks the provider of an entry. A name with a NUL cannot be asked for. -/
def askProvider (e : Entry) (provider : CodeRef) (data : Option CodeRef) :
    Work (Option CodeRef) := do
  if e.nativeName.toList.contains '\x00' then return none
  Work.trace (.asked e.id provider e.nativeName data)
  match (← Work.host).provider provider with
  | some code => n.runCode (code e.nativeName data)
  | none => return none

/-- The native function of an entry. A provider is asked once, and its answer kept. If the provider
has its own entry looked up meanwhile, that waits for the answer. -/
def nativeFunc (e : Entry) : Work (Option CodeRef) := do
  match e.target with
  | .direct code => return some code
  | .provided provider data =>
    match (← Work.host).provided.get? e.id with
    | some answer => return answer
    | none =>
      let answer ← Work.holding (.answer e.id) (askProvider n e provider data)
      let answer := ((← Work.host).provided.get? e.id).getD answer
      Work.modifyHost fun h => { h with provided := h.provided.set e.id answer }
      return answer

/-- The plan of an entry, unless its unit is gone or there is no native function. -/
def lower (e : Entry) : Work (Except DispatchError CallPlan) := do
  if !(← Work.host).isLoaded e then return .error (.unitUnloaded e.method e.unit)
  match ← nativeFunc n e with
  | some func => return .ok (.ofEntry e func)
  | none => return .error (.nativeUnavailable e.method e.nativeName)

/-- Runs a native function. One that is nowhere leaves zero. -/
def runNative (func : CodeRef) (args : List NativeArg) : Work UInt64 := do
  Work.trace (.called func args)
  match (← Work.host).native func with
  | some code => n.runCode (code args)
  | none => return 0

/-- Calls a plan with some values. The guards go back however the call ends. -/
def call (p : CallPlan) (args : List Value) : Work (Except DispatchError (Option Value)) := do
  let e := p.entry
  if !(← Work.host).isLoaded e then return .error (.unitUnloaded e.method e.unit)
  if args.length ≠ e.convention.argCount then
    return .error (.arityMismatch e.method e.convention.argCount args.length)
  let (error, s) := p.marshal (← Work.host).heap args
  Work.modifyHost fun h => { h with heap := s.heap }
  let result ←
    match error with
    | some e => pure (.error e)
    | none => do
      let register ← runNative n p.func s.args
      pure (p.value (← Work.host).heap register)
  Work.modifyHost fun h => { h with heap := h.heap.unpinAll s.guards }
  return result

def interpret (e : Entry) (args : List Value) : Work (Except DispatchError (Option Value)) := do
  match ← lower n e with
  | .error e => return .error e
  | .ok p => call n p args

def compileEntry (e : Entry) : Work (Except DispatchError CompiledCall) := do
  match ← lower n e with
  | .error e => return .error e
  | .ok plan => return .ok { plan, id := .single (← Work.fresh) }

/-- Lowers an entry and keeps the call, as that of a method, with its replacements. -/
def lowerKept (rs : Replacements) (m : Method) (e : Entry) :
    Work (Except DispatchError CompiledCall) := do
  match ← lower n e with
  | .error e => return .error e
  | .ok plan =>
    let c : CompiledCall := { plan, id := .cached rs.id m }
    Work.modifyHost fun h => h.modifyReplacements fun s =>
      if s.id = rs.id then { s with compiled := s.compiled.set m c } else s
    return .ok c

/-- The compiled call of a method. It is lowered at the first request that succeeds, and kept. The
compiled calls are locked meanwhile, also while a provider is asked. -/
def compile (rs : Replacements) (m : Method) : Work (Except DispatchError CompiledCall) := do
  Work.await (.calls rs.id)
  match rs.compiled.get? m with
  | some c => return .ok c
  | none =>
    match rs.published.find? m with
    | none => return .error (.notReplaced m)
    | some e => Work.holding (.calls rs.id) (lowerKept n rs m e)

def compiledCount (rs : Replacements) : Work Nat := do
  Work.await (.calls rs.id)
  return rs.compiled.length

def invoke (rs : Replacements) (m : Method) (mode : CallMode) (args : List Value) :
    Work (Except DispatchError (Option Value)) := do
  match mode with
  | .interpreted =>
    match rs.published.find? m with
    | none => return .error (.notReplaced m)
    | some e => interpret n e args
  | .compiled =>
    match ← compile n rs m with
    | .error e => return .error e
    | .ok c => call n c.plan args

/-- The entry of a method. Where it matters whether the method is static, the entry has a receiver
if and only if it is not. -/
def resolve (rs : Replacements) (m : Method) (isStatic : Option Bool) : Option Entry :=
  (rs.published.find? m).filter fun e =>
    match isStatic with
    | some s => e.convention.hasReceiver ≠ s
    | none => true

end AccelHost.Dispatch
