import AccelHost.DispatchError
import AccelHost.Heap.Basic
import AccelHost.Session

/-!
What the operations on a host come to: outcomes, failures, and the journal in which units and native
functions tell what they did.
-/
namespace AccelHost

/-- The name that a program gives to an object, an entry, a compiled call or a guard. -/
abbrev Label := String

structure ShutdownReport where
  /-- The units that were finalized, in the order of their declaration. -/
  finalized : List String := []
  /-- The units whose finalize hook failed, with their messages. -/
  failures : List (String × String) := []
deriving DecidableEq

def ShutdownReport.isClean (r : ShutdownReport) : Bool := r.failures.isEmpty

/-- An entry, and whether the module of its owner is there. -/
structure EntryView where
  entry : Entry
  loaded : Bool
deriving DecidableEq

/-- Whether a name meant the same thing before: nothing if it is not given, or new. -/
inductive Sameness where
  | unnamed
  | new
  | known (same : Bool)
deriving DecidableEq

/-- What an operation gives when it succeeds. -/
inductive Outcome where
  | done
  | flag (b : Bool)
  | count (n : Nat)
  | text (s : String)
  | symbol (name : Option String)
  | ref (r : ObjRef)
  | foreign (r : ObjRef)
  | elements (k : ElemKind) (values : List k.Val)
  | field (v : Int64)
  | word (w : UInt64)
  | located (r : Option ObjRef)
  | pinned (g : Guard)
  | moved (count : Nat) (stayed : List Label)
  | size (cells : Nat)
  | described (cells : Nat) (replacements : Option (Nat × Nat)) (known : List Bool)
  | units (us : List DeclaredUnit)
  | report (r : ShutdownReport)
  | runtime (units entries : Nat) (enabled : Bool) (flags : Flags)
  | flags (flags : Flags)
  | status (s : Status)
  | finished (result : Except String Unit)
  | declared (u : DeclaredUnit)
  | registry (r : Registry)
  | entry (e : EntryView)
  | found (e : Option EntryView)
  | entries (es : List EntryView)
  | snapshot (us : List DeclaredUnit)
  | resolved (e : Option EntryView) (same : Sameness)
  | lowered (params : List NativeType) (result : NativeType)
  | compiled (m : Method) (params : List NativeType) (result : NativeType) (same : Sameness)
  | value (v : Option Value)

inductive Failure where
  | startup (e : StartupError)
  | dispatch (e : DispatchError)
  | convention (e : ConventionFault)
  | noLabel
  | noUnit
  | noRuntime
  | noPending
  | nullFunction
  /-- Calls are nested more deeply than the run allows. -/
  | tooDeep

abbrev Reply := Except Failure Outcome

/-- A native argument as the journal tells it: a pointer by the cell that it leads to. -/
inductive ArgNote where
  | prim (k : ElemKind) (v : k.Val)
  | null
  | cell (r : Option ObjRef)

inductive Act where
  | accelVersion | vmVersion | unitInfo | param | flag | setFlag | cpu | register | step | run
deriving DecidableEq

mutual

inductive Event where
  | hook (point : EntryPoint) (unit : String)
  | act (act : Act) (result : ActNote)
  | log (level : LogLevel) (message : String)
  | provider (provider name : String) (data : Bool) (abi : Nat) (vmVersion : Status)
  /-- A call of a native function, with the steps of its body if it has one. -/
  | native (name : String) (args : List ArgNote) (steps : Option (List StepAnswer))

/-- What a unit tells of a request: the answer as it got it. -/
inductive ActNote where
  | number (n : Int)
  | filled (s : Status) (contents : List (Option (List UInt8)))
  | text (t : Option String)
  | texts (ts : Option (List String))
  | flag (b : Bool)
  | step (a : StepAnswer)
  | run (a : RunAnswer)

/-- The reply to an operation, with the events that it caused. -/
inductive StepAnswer where
  | mk (reply : Reply) (events : List Event)

/-- The replies to the operations of a program, and the events of its end. -/
inductive RunAnswer where
  | mk (steps : List StepAnswer) (closing : List Event)

end

/-- An answer to a request of foreign code. -/
inductive ActionReply where
  | called (r : CallbackReply)
  | stepped (a : StepAnswer)
  | ran (a : RunAnswer)
  | word (w : Option UInt64)
  | located (r : Option ObjRef)
  | nothing

end AccelHost
