import AccelHost.Machine

/-!
Startup and shutdown. Startup is all or nothing: every option is parsed, every unit declared, then
each unit is loaded and initialized, and at last each is post-initialized and so becomes active. On
any failure the units that are active by then are finalized and every module is released.
-/
namespace AccelHost.Startup

structure HookEnd where
  status : Status
  session : Session

/-- The error of a hook: a rejected registration before a failing status. -/
def HookEnd.error? (e : HookEnd) (point : EntryPoint) (unit : String)
    (failed : String → HookFault → StartupError) : Option StartupError :=
  match e.session.failure with
  | some failure => some failure
  | none =>
    if e.status = Status.ok then none else some (failed unit (e.session.fault point e.status))

/-- The message of a hook that failed although nothing more can be undone. -/
def HookEnd.message? (e : HookEnd) (point : EntryPoint) : Option String :=
  match e.session.failure with
  | some failure => some failure.message
  | none => if e.status = Status.ok then none else some (e.session.fault point e.status).message

variable (n : Nested)

/-- Calls a hook of a unit. The session is the innermost one for as long as the hook runs. -/
def callHook (point : EntryPoint) (hook : UnitHandle → Behaviour Status) (registry : Registry)
    (handle : UnitHandle) : Work HookEnd := do
  Work.trace (.entered point handle)
  let host ← Work.host
  let session : Session := { handle, vmVersion := host.settings.vmVersion, registry }
  Work.modifyHost fun h => { h with sessions := session :: h.sessions }
  let status ← n.runCode (hook handle)
  let session := (← Work.host).sessions.headD session
  Work.modifyHost fun h => { h with sessions := h.sessions.tail }
  Work.trace (.left point handle status session.failure)
  return { status, session }

def advance (registry : Registry) (handle : UnitHandle) (next : UnitState) : Work Registry := do
  let before := ((registry.unit? handle).map (·.state)).getD next
  Work.trace (.advanced handle before next)
  return registry.modifyUnit handle fun u => { u with state := next }

def attach (registry : Registry) (handle : UnitHandle) (m : UnitModule) : Work Registry := do
  Work.trace (.attached handle)
  Work.modifyHost fun h =>
    { h with modules := h.modules.set handle m, loaded := h.loaded.set handle true }
  let registry := registry.modifyUnit handle fun u => { u with location := some m.location }
  advance registry handle .loaded

/-- Lets the module of a unit go, if it is still there. -/
def release (handle : UnitHandle) : Work Unit := do
  if ((← Work.host).modules.get? handle).isSome then
    Work.trace (.released handle)
    Work.modifyHost fun h =>
      { h with modules := h.modules.erase handle, loaded := h.loaded.set handle false }

def releaseAll (registry : Registry) : Work Unit :=
  registry.units.forM fun u => release u.handle

def finalizeUnit (registry : Registry) (report : ShutdownReport) (handle : UnitHandle) :
    Work (Registry × ShutdownReport) := do
  match registry.unit? handle with
  | none => return (registry, report)
  | some u =>
    if !u.isActive then return (registry, report)
    let hook := ((← Work.host).modules.get? handle).bind (·.finalize)
    let (registry, failures) ←
      match hook with
      | none => pure (registry, [])
      | some hook => do
        let e ← callHook n .finalize hook registry handle
        pure (e.session.registry, (e.message? .finalize).toList.map fun m => (u.name, m))
    let registry ← advance registry handle .finalized
    return (registry,
      { finalized := report.finalized ++ [u.name], failures := report.failures ++ failures })

def finalizeUnits (registry : Registry) (report : ShutdownReport) :
    List UnitHandle → Work (Registry × ShutdownReport)
  | [] => return (registry, report)
  | handle :: rest => do
    let (registry, report) ← finalizeUnit n registry report handle
    finalizeUnits registry report rest

/-- Finalizes every active unit, then lets every module go. -/
def finalizeAll (registry : Registry) : Work (Registry × ShutdownReport) := do
  let (registry, report) ← finalizeUnits n registry {} (registry.units.map (·.handle))
  releaseAll registry
  return (registry, report)

/-- Undoes a startup that failed: what is active is finalized, and the units are dropped. A unit
that is dropped lets its module go, if that is still there. -/
def abort (registry : Registry) : Work Unit := do
  let (registry, _) ← finalizeAll n registry
  releaseAll registry

/-- Loads a unit and checks that it exports what it must. -/
def load (source : Source) (u : DeclaredUnit) : Except StartupError
    (UnitModule × (UnitHandle → Behaviour Status) × Behaviour (Option ExportTable)) :=
  match source.load u.option with
  | .error fault => .error (.moduleNotFound u.option.text fault)
  | .ok m =>
    match m.init, m.exports with
    | some init, some exports => .ok (m, init, exports)
    | none, _ => .error (.missingEntryPoint u.name .init)
    | some _, none => .error (.missingEntryPoint u.name .exports)

/-- Loads a unit, calls its `init` hook and registers what it exports. -/
def initUnit (registry : Registry) (u : DeclaredUnit) :
    Work (Option StartupError × Registry) := do
  match load (← Work.host).source u with
  | .error e => return (some e, registry)
  | .ok (m, init, exports) =>
    let registry ← attach registry u.handle m
    let e ← callHook n .init init registry u.handle
    let registry := e.session.registry
    match e.error? .init u.name .initFailed with
    | some e => return (some e, ← advance registry u.handle .initFailed)
    | none =>
      let registry ← advance registry u.handle .activePending
      Work.trace (.entered .exports u.handle)
      let table ← n.runCode exports
      match (ExportTable.read u.name table).bind (registry.registerEntries u.handle) with
      | .ok registry => return (none, registry)
      | .error e => return (some e, registry)

/-- Initializes some units in order, up to the first that fails. -/
def initUnits (registry : Registry) :
    List DeclaredUnit → Work (Option StartupError × Registry)
  | [] => return (none, registry)
  | u :: rest => do
    match ← initUnit n registry u with
    | (none, registry) => initUnits registry rest
    | (some e, registry) => return (some e, registry)

def parseAll : List String → Except StartupError (List UnitOption)
  | [] => .ok []
  | option :: rest =>
    match UnitOption.parse option with
    | .error fault => .error (.invalidUnitOption option fault)
    | .ok option =>
      match parseAll rest with
      | .error e => .error e
      | .ok options => .ok (option :: options)

def declareAll (registry : Registry) : List UnitOption → Work (Except StartupError Registry)
  | [] => return .ok registry
  | option :: rest => do
    match registry.register option (← get).nextHandle with
    | .error e => return .error e
    | .ok registry =>
      let _ ← Work.freshHandle
      declareAll registry rest

/-- Loads and initializes the units of a registry, or undoes what was done. -/
def loadAll (registry : Registry) : Work (Except StartupError Registry) := do
  match ← initUnits n registry registry.units with
  | (none, registry) => return .ok registry
  | (some e, registry) =>
    abort n registry
    return .error e

/-- The first phase of startup. The units are loaded and initialized, but none is active. -/
def initAll : Work (Except StartupError Registry) := do
  let settings := (← Work.host).settings
  if !settings.enabled then return .ok {}
  match parseAll settings.units with
  | .error e => return .error e
  | .ok options =>
    match ← declareAll {} options with
    | .error e => return .error e
    | .ok registry => loadAll n registry

/-- Calls the `post_init` hook of a unit, if it has one, and makes the unit active. -/
def postInitUnit (registry : Registry) (handle : UnitHandle) :
    Work (Option StartupError × Registry) := do
  let name := ((registry.unit? handle).map (·.name)).getD ""
  match ((← Work.host).modules.get? handle).bind (·.postInit) with
  | none => return (none, ← advance registry handle .active)
  | some hook =>
    let e ← callHook n .postInit hook registry handle
    let registry := e.session.registry
    match e.error? .postInit name .postInitFailed with
    | some e => return (some e, ← advance registry handle .postInitFailed)
    | none => return (none, ← advance registry handle .active)

/-- Makes some units active in order, up to the first that fails. -/
def postInitUnits (registry : Registry) :
    List UnitHandle → Work (Option StartupError × Registry)
  | [] => return (none, registry)
  | handle :: rest => do
    match ← postInitUnit n registry handle with
    | (none, registry) => postInitUnits registry rest
    | (some e, registry) => return (some e, registry)

/-- The second phase of startup: every unit becomes active. -/
def postInitAll (registry : Registry) : Work (Except StartupError Registry) := do
  match ← postInitUnits n registry (registry.units.map (·.handle)) with
  | (none, registry) => return .ok registry
  | (some e, registry) =>
    abort n registry
    return .error e

def publish (registry : Registry) : Work Runtime := do
  return { registry, replacements := { id := ← Work.fresh, published := registry } }

def start : Work (Except StartupError Runtime) := do
  match ← initAll n with
  | .error e => return .error e
  | .ok registry =>
    match ← postInitAll n registry with
    | .error e => return .error e
    | .ok registry => return .ok (← publish registry)

/-- Finalizes the units of a runtime, unless that was done before. -/
def finalize (r : Runtime) : Work (Runtime × ShutdownReport) := do
  if r.finalized then return (r, {})
  let (registry, report) ← finalizeAll n r.registry
  return ({ r with registry, finalized := true }, report)

/-- Drops a runtime: its units are finalized first if they were not, and dropped with it. -/
def drop (r : Runtime) : Work Unit := do
  let (r, _) ← finalize n r
  releaseAll r.registry

def shutdown (r : Runtime) : Work ShutdownReport := do
  let (r, report) ← finalize n r
  drop n r
  return report

end AccelHost.Startup
