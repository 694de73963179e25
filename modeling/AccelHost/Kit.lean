import AccelHost.Behaviour

/-!
The kit for writers of units: hooks that succeed or fail with a message, and requests with ordinary
texts for arguments and answers. Its buffers are large enough for whatever the host accepts.
-/
namespace AccelHost.Kit

open Text (Buffer ForeignText)

def paramRoom : Nat := 1025

def nameRoom : Nat := 256

/-- What a unit has of its host during a hook. -/
structure Env where
  handle : UnitHandle
deriving DecidableEq

/-- What a host knows about the unit that asks. -/
structure UnitInfo where
  feature : String
  version : String
  params : String
deriving DecidableEq

def room (size : Nat) : Buffer := .room (List.replicate size 0)

/-- A text as the host gets it. One with a NUL cannot be given. -/
def foreign? (s : String) : Option ForeignText :=
  if s.toList.contains '\x00' then none else some (.ofString s)

def sanitize (message : String) : String :=
  String.ofList (message.toList.flatMap fun c => if c = '\x00' then ['\\', '0'] else [c])

def textOf (b : Buffer) : String := Text.decodeCut (b.content?.getD [])

def call (c : Callback) : Behaviour CallbackReply :=
  .ask (.call c) fun reply =>
    match reply with
    | .called r => .done r
    | _ => .done .nothing

/-- The texts that a reply filled in, if it succeeded. -/
def filled? : CallbackReply → Option (List String)
  | .filled s buffers => if s = Status.ok then some (buffers.map textOf) else none
  | _ => none

def statusOf : CallbackReply → Status
  | .status s => s
  | _ => Status.error

def numberOf : CallbackReply → Nat
  | .number n => n
  | _ => 0

def accelVersion : Behaviour Nat := numberOf <$> call .accelVersion

def vmVersion : Behaviour (Option String) := do
  return (filled? (← call (.vmVersion (room nameRoom)))).bind (·.head?)

/-- Asks for something by a name, unless the name cannot be given. -/
def lookUp (name : String) (c : ForeignText → Callback) : Behaviour (Option String) :=
  match foreign? name with
  | some name => do return (filled? (← call (c name))).bind (·.head?)
  | none => pure none

def flag (name : String) : Behaviour (Option String) :=
  lookUp name fun name => .flag name (room paramRoom)

def setFlag (name value : String) : Behaviour Bool :=
  match foreign? name, foreign? value with
  | some name, some value => do return statusOf (← call (.setFlag name value)) == Status.ok
  | _, _ => pure false

def supportsCpuFeature (name : String) : Behaviour Bool :=
  match foreign? name with
  | some name => do return numberOf (← call (.cpuFeature name)) != 0
  | none => pure false

namespace Env

variable (env : Env)

/-- What the unit has of a host whose interface has a version, if it is there and fits. -/
def ofHost? (abi : Option Nat) (handle : UnitHandle) : Option Env :=
  if abi = some abiVersion then some ⟨handle⟩ else none

def unitInfo : Behaviour (Option UnitInfo) := do
  let reply ← call (.unitInfo env.handle (room nameRoom) (room nameRoom) (room paramRoom))
  match filled? reply with
  | some [feature, version, params] => return some { feature, version, params }
  | _ => return none

def param (key : String) : Behaviour (Option String) :=
  lookUp key fun key => .param env.handle key (room paramRoom)

/-- Registers one more entry. Gives the status of a refusal. -/
def register (entry : Option RawEntry) : Behaviour (Option Status) := do
  let s := statusOf (← call (.register env.handle entry))
  return if s = Status.ok then none else some s

def report (message : String) : Behaviour Unit := do
  let _ ← call (.report env.handle (.ofString (sanitize message)))

def log (level : Nat) (message : String) : Behaviour Unit := do
  let _ ← call (.log env.handle level (.ofString (sanitize message)))

end Env

/-- A hook for a host whose interface has a version. A failure is reported with its message. -/
def hook (abi : Option Nat) (body : Env → Behaviour (Except String Unit)) (handle : UnitHandle) :
    Behaviour Status :=
  match Env.ofHost? abi handle with
  | none => pure Status.error
  | some env => do
    match ← body env with
    | .ok () => return Status.ok
    | .error message =>
      env.report message
      return Status.error

theorem nul_not_mem_sanitize (message : String) : '\x00' ∉ (sanitize message).toList := by
  simp only [sanitize, String.toList_ofList, List.mem_flatMap, not_exists, not_and]
  intro c _ h
  split at h
  · simp at h
  · rename_i hc
    rw [List.mem_singleton] at h
    exact hc h.symm

end AccelHost.Kit
