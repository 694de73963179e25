import AccelHost.Machine

/-!
Operations on the bare registry of a host. Its units are declared and register entries, but have no
modules.
-/
namespace AccelHost

namespace EntrySpec

variable (s : EntrySpec)

/-- The target of a single entry: its provider, or else its function. -/
def target? : Option NativeTarget :=
  match s.provider with
  | some p => some (.provided p s.func)
  | none => s.func.map .direct

/-- The entry that is specified. Its function is looked at before its tags. -/
def entry (unit : String) (serial : Nat) : Except Failure Entry :=
  match s.target? with
  | none => .error .nullFunction
  | some target =>
    match Convention.ofTags s.tags with
    | .error e => .error (.convention e)
    | .ok convention =>
      .ok { unit := s.unit.getD unit, method := s.method, nativeName := s.nativeName, target,
            convention, serial }

end EntrySpec

namespace RegistryOp

/-- A unit of the bare registry: its handle, and its name if the registry knows it. -/
def choose (r : Registry) : UnitChoice → Except Failure (UnitHandle × String)
  | .place i =>
    match r.units[i]? with
    | some u => .ok (u.handle, u.name)
    | none => .error .noUnit
  | .unknown handle => .ok (handle, "")

def declare (text : String) : Work Reply := do
  match UnitOption.parse text with
  | .error fault => return .error (.startup (.invalidUnitOption text fault))
  | .ok option =>
    let handle := (← get).nextHandle
    match (← Work.host).bare.register option handle with
    | .error e => return .error (.startup e)
    | .ok bare =>
      let _ ← Work.freshHandle
      Work.modifyHost fun h => { h with bare }
      match bare.unit? handle with
      | some u => return .ok (.declared u)
      | none => return .error .noUnit

/-- The entries of a batch, each of which gets a number. -/
def batch (unit : String) : List EntrySpec → Work (Except Failure (List Entry))
  | [] => return .ok []
  | s :: rest => do
    match s.entry unit (← Work.fresh) with
    | .error e => return .error e
    | .ok e =>
      match ← batch unit rest with
      | .error e => return .error e
      | .ok es => return .ok (e :: es)

/-- Registers a batch of entries in the bare registry. -/
def registerBatch (choice : UnitChoice) (specs : List EntrySpec) : Work Reply := do
  match choose (← Work.host).bare choice with
  | .error e => return .error e
  | .ok (handle, name) =>
    match ← batch name specs with
    | .error e => return .error e
    | .ok es =>
      match (← Work.host).bare.registerEntries handle es with
      | .error e => return .error (.startup e)
      | .ok bare =>
        Work.modifyHost fun h => { h with bare }
        return .ok (.count bare.entries.length)

def perform : RegistryOp → Work Reply
  | register option => declare option
  | registerEntries choice specs => registerBatch choice specs
  | units => return .ok (.registry (← Work.host).bare)
  | find m => do
    let h ← Work.host
    return .ok (.found ((h.bare.find? m).map h.view))
  | snapshot empty => do
    let id ← Work.fresh
    Work.modifyHost fun h =>
      { h with bareReplacements := some { id, published := if empty then {} else h.bare } }
    return .ok .done

end RegistryOp

end AccelHost
