import AccelHost.Dispatch
import AccelHost.Startup

/-!
Operations on the units and runtimes of a host. Hooks may carry them out as well: a runtime stays
in use until another one is ready, and one that is shut down is out of use before its hooks run.
-/
namespace AccelHost.UnitOp

variable (n : Nested)

/-- Takes the runtime out of use, if there is one, and does something with it. -/
def withRuntime? {α : Type} (f : Runtime → Work α) : Work (Option α) := do
  match (← Work.host).runtime with
  | none => return none
  | some r =>
    Work.modifyHost fun h => { h with runtime := none }
    return some (← f r)

/-- Takes a runtime into use. The one before it is dropped then. -/
def install (r : Runtime) : Work Reply := do
  let before := (← Work.host).runtime
  Work.modifyHost fun h => { h with runtime := some r }
  match before with
  | some old => Startup.drop n old
  | none => pure ()
  return .ok (.units r.registry.units)

def dropPending? : Work (Option Unit) := do
  match (← Work.host).pending with
  | none => return none
  | some r =>
    Work.modifyHost fun h => { h with pending := none }
    return some (← Startup.releaseAll r)

/-- Makes units pending. Those that were are dropped. -/
def suspend (r : Registry) : Work Reply := do
  let _ ← dropPending?
  Work.modifyHost fun h => { h with pending := some r }
  return .ok (.units r.units)

def query (h : Host) : UnitOp → Reply
  | units =>
    match h.runtime, h.pending with
    | some r, _ => .ok (.units r.registry.units)
    | none, some r => .ok (.units r.units)
    | none, none => .error .noRuntime
  | runtime =>
    match h.runtime with
    | some r =>
      .ok (.runtime r.replacements.published.units.length r.replacements.published.entries.length
        h.settings.enabled h.flags)
    | none => .error .noRuntime
  | _ => .ok (.flags h.flags)

/-- The numbers of published entries and of compiled calls, if there are replacements. -/
def counts : Work (Option (Nat × Nat)) := do
  match (← Work.host).replacements? with
  | none => return none
  | some s => return some (s.published.entries.length, ← Dispatch.compiledCount s)

def tellState (identifiers : List String) : Work Reply := do
  let replacements ← counts
  let h ← Work.host
  return .ok (.described h.heap.size replacements (identifiers.map h.source.contains))

def perform : UnitOp → Work Reply
  | start => do
    match ← Startup.start n with
    | .error e => return .error (.startup e)
    | .ok r => install n r
  | initAll => do
    match ← Startup.initAll n with
    | .error e => return .error (.startup e)
    | .ok r => suspend r
  | postInitAll => do
    match (← Work.host).pending with
    | none => return .error .noPending
    | some r =>
      Work.modifyHost fun h => { h with pending := none }
      match ← Startup.postInitAll n r with
      | .error e => return .error (.startup e)
      | .ok r => install n (← Startup.publish r)
  | dropPending => do
    match ← dropPending? with
    | none => return .error .noPending
    | some _ => return .ok .done
  | emptyRuntime => do
    let _ ← install n (← Startup.publish {})
    return .ok .done
  | shutdown => do
    match ← withRuntime? (Startup.shutdown n) with
    | none => return .error .noRuntime
    | some report => return .ok (.report report)
  | dropRuntime => do
    match ← withRuntime? (Startup.drop n) with
    | none => return .error .noRuntime
    | some _ => return .ok .done
  | describe identifiers => tellState identifiers
  | op => return query (← Work.host) op

end AccelHost.UnitOp
