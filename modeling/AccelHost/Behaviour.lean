import AccelHost.Code
import AccelHost.Heap.Allocator
import AccelHost.Outcome

/-!
Programs for a host: operations on its heap, its units, its registries and its entries, with the
units and native functions that these run. Units and native functions are foreign code. They may ask
for anything that the host offers them, operations and whole programs among it.
-/
namespace AccelHost

/-- Operations on the heap. Objects and guards go by name. -/
inductive HeapOp where
  | newObject (className : String) (fields : Nat) (name : Label)
  | newArray (k : ElemKind) (length : Nat) (name : Label)
  | newArrayFrom (k : ElemKind) (values : List k.Val) (name : Label)
  /-- Names a reference that this heap did not give. -/
  | foreign (r : ObjRef) (name : Label)
  | free (obj : Label)
  | kind (obj : Label)
  | arrayLength (obj : Label)
  | read (k : ElemKind) (obj : Label)
  | write (k : ElemKind) (obj : Label) (values : List k.Val)
  | readField (obj : Label) (index : Nat)
  | writeField (obj : Label) (index : Nat) (value : Int64)
  | resolveAddress (address : UInt64)
  | resolveObject (obj : Label) (offset : Int)
  /-- Remembers the address of an object. -/
  | mark (obj : Label)
  | pin (obj guardName : Label)
  | unpin (guardName : Label)
  | isPinned (obj : Label)
  | relocate
  | size
  | display (obj : Label)

inductive Argument where
  | prim (k : ElemKind) (v : k.Val)
  | null
  | obj (name : Label)

/-- An entry that no unit exports. Its function may be null. -/
structure EntrySpec where
  unit : Option String
  method : Method
  nativeName : String
  func : Option CodeRef
  provider : Option CodeRef
  tags : List UInt8

/-- A unit of the bare registry, by its place, or a handle that the registry does not know. -/
inductive UnitChoice where
  | place (index : Nat)
  | unknown (handle : UnitHandle)

/-- Operations on a registry without a runtime. -/
inductive RegistryOp where
  | register (option : String)
  | registerEntries (unit : UnitChoice) (entries : List EntrySpec)
  | units
  | find (m : Method)
  | snapshot (empty : Bool)

inductive CallMode where
  | interpreted | compiled
deriving DecidableEq

/-- Operations on published entries, and on single ones. -/
inductive DispatchOp where
  | entries
  | publishedUnits
  | find (m : Method)
  | isNative (name : String)
  /-- With `isStatic` the receiver of the entry must agree. -/
  | resolve (m : Method) (isStatic : Option Bool) (name : Option Label)
  | compile (m : Method) (name : Option Label)
  | compiledCount
  | invoke (m : Method) (mode : CallMode) (args : List Argument) (name : Option Label)
  | entry (spec : EntrySpec) (name : Label)
  | entryInfo (entry : Label)
  | nativeFunc (entry : Label)
  | lower (entry : Label)
  | compileEntry (entry : Label) (name : Option Label)
  | invokeEntry (entry : Label) (args : List Argument) (name : Option Label)
  | call (compiled : Label) (args : List Argument) (name : Option Label)

inductive UnitOp where
  | start
  | initAll
  | postInitAll
  | dropPending
  | emptyRuntime
  | shutdown
  | dropRuntime
  | units
  | runtime
  | flags
  /-- The state of the host in short, and whether units are there under some identifiers. -/
  | describe (identifiers : List String)

/-- What code that calls the host on its own comes to. -/
inductive EnvResult where
  | status (s : Status)
  | finished (result : Except String Unit)

/-- A loaded module: the entry points that it exports, as code for requests `ω`. -/
structure ModuleOf (ω : Type) where
  location : String
  init : Option (UnitHandle → Code ω ActionReply Status) := none
  postInit : Option (UnitHandle → Code ω ActionReply Status) := none
  finalize : Option (UnitHandle → Code ω ActionReply Status) := none
  exports : Option (Code ω ActionReply (Option ExportTable)) := none

structure SourceOf (ω : Type) where
  load : UnitOption → Except LookupFault (ModuleOf ω)
  contains : String → Bool

/-- The address where blocks begin, and the room between two of them. -/
structure Layout where
  first : Nat := 1 <<< 44
  room : Nat := UInt32.size
deriving DecidableEq

/-- The allocator that lays each block after all others. -/
def Layout.allocator (l : Layout) : Allocator where
  base _ limit _ := limit
  next limit size := limit + size + l.room
  lays _ _ _ :=
    { pos := id
      clear := fun hbelow s hs c hc => .inr (hbelow s hs c hc)
      below := Nat.le_add_right ..
      grows := Nat.le_add_right .. }

/-- A program: settings, units, native code and operations `σ`. The environment chooses where blocks
are laid, and no answer depends on it unless a program makes up addresses. -/
structure ProgramOf (ω σ : Type) where
  settings : Settings
  layout : Layout := {}
  allocator : Allocator := layout.allocator
  source : SourceOf ω
  native : CodeRef → Option (List NativeArg → Code ω ActionReply UInt64)
  provider : CodeRef → Option (String → Option CodeRef → Code ω ActionReply (Option CodeRef))
  steps : List σ

mutual

inductive Action where
  | call (c : Callback)
  | step (op : Op)
  | run (p : ProgramOf Action Op)
  /-- Writes an event into the journal. -/
  | note (e : Event)
  | load (address : UInt64) (width : Nat)
  | store (address : UInt64) (width : Nat) (value : UInt64)
  /-- Asks for the cell that holds an address. -/
  | locate (address : UInt64)
  | addressOf (obj : Label)
  | markOf (obj : Label)

inductive Op where
  | heap (op : HeapOp)
  | registry (op : RegistryOp)
  | dispatch (op : DispatchOp)
  | units (op : UnitOp)
  /-- Runs code that calls the host on its own. -/
  | env (code : Code Action ActionReply EnvResult)

end

abbrev Behaviour := Code Action ActionReply

abbrev UnitModule := ModuleOf Action

abbrev Source := SourceOf Action

abbrev Program := ProgramOf Action Op

/-- The hook of a module at an entry point. -/
def ModuleOf.hook? {ω : Type} (m : ModuleOf ω) :
    EntryPoint → Option (UnitHandle → Code ω ActionReply Status)
  | .init => m.init
  | .postInit => m.postInit
  | .finalize => m.finalize
  | .exports => none

end AccelHost
