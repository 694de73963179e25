import AccelHost.Kit

/-!
Foreign code by script: native functions with a body of operations and a rule for their result,
hooks that make requests one after the other, and providers that hand their data back. All of them
tell in the journal what they do.
-/
namespace AccelHost.Script

open Text (Buffer ForeignText)

def askWord (a : Action) : Behaviour (Option UInt64) :=
  .ask a fun reply =>
    match reply with
    | .word w => .done w
    | _ => .done none

def askStep (op : Op) : Behaviour StepAnswer :=
  .ask (.step op) fun reply =>
    match reply with
    | .stepped a => .done a
    | _ => .done (.mk (.error .tooDeep) [])

def askRun (p : Program) : Behaviour RunAnswer :=
  .ask (.run p) fun reply =>
    match reply with
    | .ran a => .done a
    | _ => .done (.mk [] [])

def askCell (address : UInt64) : Behaviour (Option ObjRef) :=
  .ask (.locate address) fun reply =>
    match reply with
    | .located r => .done r
    | _ => .done none

def note (e : Event) : Behaviour Unit := .ask (.note e) fun _ => .done ()

/-! ### Native functions -/

/-- A step in the body of a native function. Arguments are counted as they are handed over. -/
inductive BodyStep where
  | op (op : Op)
  /-- Reads element `index` of so many bytes at a pointer. -/
  | peek (arg width index : Nat)
  | poke (arg width index : Nat) (value : UInt64)

/-- What a native function leaves in the result register. -/
inductive ResultRule where
  | word (w : UInt64)
  | arg (index : Nat) (offset : Int)
  | obj (name : Label) (offset : Int)
  | mark (name : Label) (offset : Int)
  /-- The sum of the integer arguments. -/
  | sum

structure Native where
  name : String
  /-- What it does before it computes its result. A body without steps is a body, too. -/
  body : Option (List BodyStep)
  result : ResultRule

/-- The address of element `index` of so many bytes at a pointer argument. -/
def elementAddress (args : List NativeArg) (arg width index : Nat) : UInt64 :=
  ((args[arg]?.bind NativeArg.address?).getD 0) + UInt64.ofNat (width * index)

/-- A word moved by an offset, or zero where there is none. -/
def offsetBy (offset : Int) : Option UInt64 → UInt64
  | some w => w + (Int64.ofInt offset).toUInt64
  | none => 0

def argNote : NativeArg → Behaviour ArgNote
  | .prim k v => pure (.prim k v)
  | .pointer a => if a = 0 then pure .null else .cell <$> askCell a

def BodyStep.code (args : List NativeArg) : BodyStep → Behaviour StepAnswer
  | .op o => askStep o
  | .peek arg width index => do
    match ← askWord (.load (elementAddress args arg width index) width) with
    | some w => return .mk (.ok (.word w)) []
    | none => return .mk (.error .noLabel) []
  | .poke arg width index value => do
    let _ ← askWord (.store (elementAddress args arg width index) width value)
    return .mk (.ok .done) []

def addend : NativeArg → UInt64
  | .prim .float _ | .prim .double _ | .pointer _ => 0
  | .prim k v => k.widen v

def ResultRule.code (args : List NativeArg) : ResultRule → Behaviour UInt64
  | word w => pure w
  | arg i offset => pure (offsetBy offset (args[i]?.map NativeArg.toWord))
  | obj name offset => offsetBy offset <$> askWord (.addressOf name)
  | mark name offset => offsetBy offset <$> askWord (.markOf name)
  | sum => pure (args.foldl (fun s a => s + addend a) 0)

def bodyCode (args : List NativeArg) : Option (List BodyStep) → Behaviour (Option (List StepAnswer))
  | none => pure none
  | some steps => some <$> steps.mapM (BodyStep.code args)

/-- What a native function does: it looks at its arguments, carries its body out, computes its
result and tells of the call. -/
def Native.code (f : Native) (args : List NativeArg) : Behaviour UInt64 := do
  let notes ← args.mapM argNote
  let steps ← bodyCode args f.body
  let result ← f.result.code args
  note (.native f.name notes steps)
  return result

/-! ### Providers -/

/-- A provider that answers with its data, or with nothing. -/
inductive Provider where
  | data | nothing
deriving DecidableEq

def Provider.name : Provider → String
  | data => "data"
  | nothing => "null"

/-- The code of a provider. It tells whether the version of the host can be read. -/
def Provider.code (p : Provider) (name : String) (data : Option CodeRef) :
    Behaviour (Option CodeRef) := do
  let status :=
    match ← Kit.call (.vmVersion (Kit.room 8)) with
    | .filled s _ => s
    | _ => Status.error
  note (.provider p.name name data.isSome abiVersion status)
  match p with
  | .data => return data
  | .nothing => return none

/-! ### Hooks -/

/-- A request of a hook that uses the host's interface as it is. Handles are counted from that of
the unit. -/
inductive Request where
  | accelVersion
  | vmVersion (buffer : Buffer)
  | unitInfo (handle : Int) (feature version params : Buffer)
  | param (handle : Int) (key : ForeignText) (buffer : Buffer)
  | flag (name : ForeignText) (buffer : Buffer)
  | setFlag (name value : ForeignText)
  | cpu (name : ForeignText)
  | register (handle : Int) (entry : Option RawEntry)
  | report (handle : Int) (message : ForeignText)
  | log (handle : Int) (level : Nat) (message : ForeignText)
  | finish (status : Status)
  | step (op : Op)
  | run (p : Program)

def handleAt (handle : UnitHandle) (offset : Int) : UnitHandle :=
  (((handle : Int) + offset) % UInt64.size).toNat

def replyNote : CallbackReply → ActNote
  | .number n => .number n
  | .status s => .number s.toInt
  | .filled s buffers => .filled s (buffers.map Buffer.content?)
  | .nothing => .number 0

def noted (act : Act) (c : Callback) : Behaviour Unit := do
  note (.act act (replyNote (← Kit.call c)))

def Request.code (handle : UnitHandle) : Request → Behaviour Unit
  | accelVersion => noted .accelVersion .accelVersion
  | vmVersion b => noted .vmVersion (.vmVersion b)
  | unitInfo o f v p => noted .unitInfo (.unitInfo (handleAt handle o) f v p)
  | param o key b => noted .param (.param (handleAt handle o) key b)
  | flag name b => noted .flag (.flag name b)
  | setFlag name value => noted .setFlag (.setFlag name value)
  | cpu name => noted .cpu (.cpuFeature name)
  | register o entry => noted .register (.register (handleAt handle o) entry)
  | report o message => do let _ ← Kit.call (.report (handleAt handle o) message)
  | log o level message => do let _ ← Kit.call (.log (handleAt handle o) level message)
  | finish _ => pure ()
  | step op => do note (.act .step (.step (← askStep op)))
  | run p => do note (.act .run (.run (← askRun p)))

/-- Makes requests in order, up to one that ends the hook. -/
def requests (handle : UnitHandle) : List Request → Behaviour Status
  | [] => pure Status.ok
  | .finish s :: _ => pure s
  | r :: rest => do
    r.code handle
    requests handle rest

/-- A request of a hook that is written with the kit. -/
inductive KitRequest where
  | accelVersion
  | vmVersion
  | unitInfo
  | param (key : String)
  | flag (name : String)
  | setFlag (name value : String)
  | cpu (name : String)
  | register (entry : Option RawEntry)
  | report (message : String)
  | log (level : Nat) (message : String)
  | fail (message : String)
  | step (op : Op)
  | run (p : Program)

def KitRequest.code (env : Kit.Env) : KitRequest → Behaviour Unit
  | accelVersion => do note (.act .accelVersion (.number (← Kit.accelVersion)))
  | vmVersion => do note (.act .vmVersion (.text (← Kit.vmVersion)))
  | unitInfo => do
    let info ← env.unitInfo
    note (.act .unitInfo (.texts (info.map fun i => [i.feature, i.version, i.params])))
  | param key => do note (.act .param (.text (← env.param key)))
  | flag name => do note (.act .flag (.text (← Kit.flag name)))
  | setFlag name value => do note (.act .setFlag (.flag (← Kit.setFlag name value)))
  | cpu name => do note (.act .cpu (.flag (← Kit.supportsCpuFeature name)))
  | register entry => do
    note (.act .register (.number ((← env.register entry).getD Status.ok).toInt))
  | report message => env.report message
  | log level message => env.log level message
  | fail _ => pure ()
  | step op => do note (.act .step (.step (← askStep op)))
  | run p => do note (.act .run (.run (← askRun p)))

def kitRequests (env : Kit.Env) : List KitRequest → Behaviour (Except String Unit)
  | [] => pure (.ok ())
  | .fail message :: _ => pure (.error message)
  | r :: rest => do
    r.code env
    kitRequests env rest

/-- The requests of a hook, made directly or with the kit. -/
inductive Hook where
  | direct (requests : List Request)
  | kit (requests : List KitRequest)

def Hook.code (h : Hook) (handle : UnitHandle) : Behaviour Status :=
  match h with
  | direct rs => requests handle rs
  | kit rs => Kit.hook (some abiVersion) (fun env => kitRequests env rs) handle

def Hook.env (h : Hook) (handle : UnitHandle) : Behaviour EnvResult :=
  match h with
  | direct rs => .status <$> requests handle rs
  | kit rs => .finished <$> kitRequests ⟨handle⟩ rs

/-! ### Units -/

/-- A unit that is linked into the host. -/
structure Unit where
  id : String
  init : Option Hook
  postInit : Option Hook
  finalize : Option Hook
  table : Option ExportTable
  /-- Symbols that lead nowhere. -/
  missing : List String

/-- The hook of a unit at an entry point, unless the symbol leads nowhere. -/
def Unit.hook? (u : Unit) (point : EntryPoint) (h : Option Hook) :
    Option (UnitHandle → Behaviour Status) :=
  if u.missing.contains point.symbol then none
  else h.map fun h handle => do
    note (.hook point u.id)
    h.code handle

def Unit.module (u : Unit) : UnitModule where
  location := "<static:" ++ u.id ++ ">"
  init := u.hook? .init u.init
  postInit := u.hook? .postInit u.postInit
  finalize := u.hook? .finalize u.finalize
  exports :=
    if u.missing.contains EntryPoint.exports.symbol then none
    else some do
      note (.hook .exports u.id)
      return u.table

/-- Units that are linked into the host, by identifier. Of two with the same one the last counts. -/
def source (units : List Unit) : Source where
  load option :=
    match units.reverse.find? fun u => u.id = option.identifier with
    | some u => .ok u.module
    | none => .error .notBuiltIn
  contains id := units.any fun u => u.id = id

def native (natives : List Native) (ref : CodeRef) : Option (List NativeArg → Behaviour UInt64) :=
  if ref.library.isSome then none
  else (natives.find? fun f => f.name = ref.symbol).map Native.code

def provider (ref : CodeRef) : Option (String → Option CodeRef → Behaviour (Option CodeRef)) :=
  if ref.library.isSome then none
  else ([Provider.data, .nothing].find? fun p => p.name = ref.symbol).map Provider.code

end AccelHost.Script
