import AccelHost.Behaviour
import AccelHost.CallPlan

/-!
The state of a run. A host has a heap, units, runtimes and the names of its program; a machine has
the host at work and, when a hook runs a program of its own, the hosts that wait for it. The trace
tells in order what the machine did to units and native code.
-/
namespace AccelHost

/-- What makes a compiled call itself: replacements keep one for a method, others have a number. -/
inductive CallId where
  | cached (replacements : Nat) (m : Method)
  | single (serial : Nat)
deriving DecidableEq

/-- A plan lowered once, to be called again and again. -/
structure CompiledCall where
  plan : CallPlan
  id : CallId
deriving DecidableEq

/-- Published entries, and the calls compiled from them. -/
structure Replacements where
  id : Nat
  published : Registry
  compiled : Keyed Method CompiledCall := []

/-- Active units after a successful startup. -/
structure Runtime where
  registry : Registry
  replacements : Replacements
  /-- Whether its units were finalized already. -/
  finalized : Bool := false

/-- What only one piece of work has at a time. -/
inductive Lock where
  /-- The calls that are compiled for the replacements of a number. -/
  | calls (replacements : Nat)
  /-- The answer that an entry keeps of its provider. -/
  | answer (entry : EntryId)
deriving DecidableEq

/-- A host at some moment of its program. -/
structure Host where
  settings : Settings
  source : Source
  native : CodeRef → Option (List NativeArg → Behaviour UInt64)
  provider : CodeRef → Option (String → Option CodeRef → Behaviour (Option CodeRef))
  heap : Heap := {}
  allocator : Allocator
  /-- All blocks lie below it, and each that is laid raises it by its size at least. -/
  addressLimit : Nat
  /-- The modules that are loaded, by the unit that owns them. -/
  modules : Keyed UnitHandle UnitModule := []
  /-- The flags that units share with their entries: whether the module is there. -/
  loaded : Keyed UnitHandle Bool := []
  /-- What providers answered, also if it was nothing. -/
  provided : Keyed EntryId (Option CodeRef) := []
  objects : Keyed Label ObjRef := []
  marks : Keyed Label Nat := []
  guards : Keyed Label Guard := []
  entries : Keyed Label Entry := []
  calls : Keyed Label CompiledCall := []
  /-- Units that wait for the second phase of their startup. -/
  pending : Option Registry := none
  runtime : Option Runtime := none
  /-- A registry used without a runtime. -/
  bare : Registry := {}
  bareReplacements : Option Replacements := none
  /-- The hook calls that are going on, the innermost first. -/
  sessions : List Session := []
  /-- The locks that are taken, the last one first. -/
  locks : List Lock := []
  serial : Nat := 0

/-- What a machine did to units and native code. -/
inductive TraceEvent where
  | entered (point : EntryPoint) (handle : UnitHandle)
  /-- A hook is over: its status, and the first registration that was rejected. -/
  | left (point : EntryPoint) (handle : UnitHandle) (status : Status)
      (rejected : Option StartupError)
  | advanced (handle : UnitHandle) (before after : UnitState)
  | attached (handle : UnitHandle)
  | released (handle : UnitHandle)
  | asked (entry : EntryId) (provider : CodeRef) (name : String) (data : Option CodeRef)
  | called (func : CodeRef) (args : List NativeArg)
deriving DecidableEq

structure Machine where
  host : Host
  /-- Hosts that wait for a program within one of their hooks, the innermost first. -/
  waiting : List Host := []
  nextHandle : UnitHandle
  journal : List Event := []
  trace : List TraceEvent := []
  /-- Whether some work waited for a lock that it holds itself. It waits for ever: what the machine
  is made to do after that never happens. -/
  stuck : Bool := false

namespace Machine

variable (m : Machine)

def await (l : Lock) : Machine := { m with stuck := m.stuck || l ∈ m.host.locks }

def hold (l : Lock) : Machine :=
  { m.await l with host := { m.host with locks := l :: m.host.locks } }

def withLocks (locks : List Lock) : Machine := { m with host := { m.host with locks } }

end Machine

namespace Host

def ofProgram (p : Program) : Host :=
  { settings := p.settings, source := p.source, native := p.native, provider := p.provider
    allocator := p.allocator, addressLimit := p.layout.first }

variable (h : Host)

def flags : Flags := h.settings.flags

def setFlags (flags : Flags) : Host := { h with settings := { h.settings with flags } }

def unitLoaded (handle : UnitHandle) : Bool := (h.loaded.get? handle).getD false

/-- The flag of an entry: that of its unit, once it is registered. -/
def isLoaded (e : Entry) : Bool :=
  match e.owner with
  | some handle => h.unitLoaded handle
  | none => true

def view (e : Entry) : EntryView := ⟨e, h.isLoaded e⟩

/-- The replacements of the runtime, or else those over the bare registry. -/
def replacements? : Option Replacements :=
  match h.runtime with
  | some r => some r.replacements
  | none => h.bareReplacements

def modifyReplacements (f : Replacements → Replacements) : Host :=
  match h.runtime with
  | some r => { h with runtime := some { r with replacements := f r.replacements } }
  | none => { h with bareReplacements := h.bareReplacements.map f }

/-- The current address of a named object, if it is live. -/
def addressOf (obj : Label) : Option Nat :=
  (h.objects.get? obj).bind fun r => (h.heap.address r).toOption

end Host

abbrev Work := StateM Machine

namespace Work

def host : Work Host := do return (← get).host

def modifyHost (f : Host → Host) : Work Unit := modify fun m => { m with host := f m.host }

def note (e : Event) : Work Unit := modify fun m => { m with journal := m.journal ++ [e] }

def trace (e : TraceEvent) : Work Unit := modify fun m => { m with trace := m.trace ++ [e] }

def journaled {α : Type} (work : Work α) : Work (α × List Event) := do
  let before := (← get).journal
  modify fun m => { m with journal := [] }
  let a ← work
  let events := (← get).journal
  modify fun m => { m with journal := before }
  return (a, events)

def fresh : Work Nat := do
  let n := (← host).serial
  modifyHost fun h => { h with serial := n + 1 }
  return n

def await (l : Lock) : Work Unit := modify (·.await l)

def holding {α : Type} (l : Lock) (work : Work α) : Work α := do
  let before := (← host).locks
  modify (·.hold l)
  let a ← work
  modify (·.withLocks before)
  return a

def freshHandle : Work UnitHandle := do
  let n := (← get).nextHandle
  modify fun m => { m with nextHandle := n + 1 }
  return n

end Work

/-- Lets the innermost session among some hosts answer, the host at work first. -/
def answerInnermost (c : Callback) : List Host → Option (CallbackReply × List Host)
  | [] => none
  | h :: rest =>
    match h.sessions with
    | s :: outer =>
      let (reply, s, flags) := s.answer h.flags c
      some (reply, { h with sessions := s.noted c reply :: outer }.setFlags flags :: rest)
    | [] => (answerInnermost c rest).map fun (reply, rest) => (reply, h :: rest)

namespace Work

def answered (c : Callback) : Work CallbackReply := do
  let m ← get
  match answerInnermost c (m.host :: m.waiting) with
  | some (reply, host :: waiting) =>
    set { m with host, waiting }
    return reply
  | _ => return c.withoutSession?.getD c.refused

/-- Answers a request for the innermost hook call. What it logs is told first. -/
def callback (c : Callback) : Work CallbackReply := do
  if let some (level, message) := c.logged? then note (.log level message)
  answered c

end Work

/-- How operations and programs within foreign code are carried out. -/
structure Nested where
  step : Op → Work StepAnswer
  run : Program → Work RunAnswer

namespace Nested

variable (n : Nested)

def answer : Action → Work ActionReply
  | .call c => return .called (← Work.callback c)
  | .step op => return .stepped (← n.step op)
  | .run p => return .ran (← n.run p)
  | .note e => do Work.note e; return .nothing
  | .load address width => return .word ((← Work.host).heap.load? address.toNat width)
  | .store address width value => do
    match (← Work.host).heap.store? address.toNat width value with
    | some heap =>
      Work.modifyHost fun h => { h with heap }
      return .word (some value)
    | none => return .word none
  | .locate address => return .located ((← Work.host).heap.resolveAddress address.toNat)
  | .addressOf obj => return .word (((← Work.host).addressOf obj).map UInt64.ofNat)
  | .markOf obj => return .word (((← Work.host).marks.get? obj).map UInt64.ofNat)

def runCode {α : Type} (code : Behaviour α) : Work α := code.run n.answer

end Nested

end AccelHost
