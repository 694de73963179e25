import AccelHost.Settings
import AccelHost.Registry

/-!
What a unit may ask of its host while one of its hooks runs. A session stands for one such call:
it knows the unit, holds the registry of its startup, and gathers what goes wrong. The flags belong
to the host and outlast it. Without a session nearly every request is refused.
-/
namespace AccelHost

open Text (Buffer ForeignText)

abbrev Status := Int32

def Status.ok : Status := 0

def Status.error : Status := -1

/-- Levels of log messages. Unknown levels count as the lowest. -/
inductive LogLevel where
  | error | warn | info | debug | trace
deriving DecidableEq

namespace LogLevel

def ofCode : Nat → LogLevel
  | 1 => error
  | 2 => warn
  | 3 => info
  | 4 => debug
  | _ => trace

def text : LogLevel → String
  | error => "ERROR"
  | warn => "WARN"
  | info => "INFO"
  | debug => "DEBUG"
  | trace => "TRACE"

end LogLevel

/-- A request of a unit, with the buffers that it offers. -/
inductive Callback where
  | accelVersion
  | vmVersion (buffer : Buffer)
  | unitInfo (handle : UnitHandle) (feature version params : Buffer)
  | param (handle : UnitHandle) (key : ForeignText) (buffer : Buffer)
  | flag (name : ForeignText) (buffer : Buffer)
  | setFlag (name value : ForeignText)
  | cpuFeature (name : ForeignText)
  | register (handle : UnitHandle) (entry : Option RawEntry)
  | report (handle : UnitHandle) (message : ForeignText)
  | log (handle : UnitHandle) (level : Nat) (message : ForeignText)

/-- The host's answer, with the buffers as they are after it. -/
inductive CallbackReply where
  | number (n : Nat)
  | status (s : Status)
  | filled (s : Status) (buffers : List Buffer)
  | nothing
deriving DecidableEq

/-- Features that every processor of the architecture has. -/
def cpuFeatures : List String := ["sse2"]

structure Session where
  handle : UnitHandle
  vmVersion : String
  registry : Registry
  /-- The first registration that was rejected. -/
  failure : Option StartupError := none
  /-- What the unit reported, in order. -/
  reports : List String := []
  /-- What it was asked for, with its answers, in order. -/
  history : List (Callback × CallbackReply) := []

def fillOne (text : Option String) (buffer : Buffer) : CallbackReply :=
  match text.bind buffer.write with
  | some b => .filled Status.ok [b]
  | none => .filled Status.error [buffer]

/-- Writes texts into buffers in turn, up to the first that has no room. -/
def fillEach : List (String × Buffer) → Bool × List Buffer
  | [] => (true, [])
  | (text, b) :: rest =>
    match b.writeOptional text with
    | some b' => let (done, bs) := fillEach rest; (done, b' :: bs)
    | none => (false, b :: rest.map (·.2))

namespace Callback

def withoutSession? : Callback → Option CallbackReply
  | accelVersion => some (.number AccelHost.accelVersion)
  | cpuFeature name => some (.number (if name.read.any cpuFeatures.contains then 1 else 0))
  | log .. => some .nothing
  | _ => none

def refused : Callback → CallbackReply
  | vmVersion b => .filled Status.error [b]
  | unitInfo _ f v p => .filled Status.error [f, v, p]
  | param _ _ b => .filled Status.error [b]
  | flag _ b => .filled Status.error [b]
  | report .. => .nothing
  | _ => .status Status.error

/-- The message that a request logs. It needs no session. -/
def logged? : Callback → Option (LogLevel × String)
  | log _ level message => message.read.map fun m => (LogLevel.ofCode level, m)
  | _ => none

def handle? : Callback → Option UnitHandle
  | unitInfo h .. | param h .. | register h _ | report h _ | log h .. => some h
  | _ => none

end Callback

namespace Session

variable (s : Session)

def unit? : Option DeclaredUnit := s.registry.unit? s.handle

def fail (e : StartupError) : Session := { s with failure := some (s.failure.getD e) }

def register (u : DeclaredUnit) (entry : Option RawEntry) : CallbackReply × Session :=
  let outcome : Except StartupError Registry :=
    match entry with
    | none => .error (.invalidExportTable u.name .nullRegistration)
    | some raw =>
      match raw.check u.name with
      | .error e => .error (.ofEntryFault u.name 0 e)
      | .ok e => s.registry.registerEntries s.handle [e]
  match outcome with
  | .ok registry => (.status Status.ok, { s with registry })
  | .error e => (.status Status.error, s.fail e)

/-- The answer to a request about the unit of the session. -/
def answerUnit (u : DeclaredUnit) : Callback → CallbackReply × Session
  | .unitInfo _ f v p =>
    let (done, buffers) := fillEach
      [(u.option.feature, f), (u.option.version.getD "", v), (u.option.rawParams.getD "", p)]
    (.filled (if done then Status.ok else Status.error) buffers, s)
  | .param _ key b => (fillOne (key.read.bind u.option.param?) b, s)
  | .register _ entry => s.register u entry
  | c => (c.refused, s)

/-- The answer to a request with the handle of the session. -/
def answerOwn : Callback → CallbackReply × Session
  | .report _ message =>
    match message.read with
    | some m => (.nothing, { s with reports := s.reports ++ [m] })
    | none => (.nothing, s)
  | c =>
    match s.unit? with
    | some u => s.answerUnit u c
    | none => (c.refused, s)

/-- The answer to a request that asks for no flag, and the session after it. A handle must be that
of the session. -/
def answerPlain (c : Callback) : CallbackReply × Session :=
  match c with
  | .vmVersion b => (fillOne (some s.vmVersion) b, s)
  | c =>
    match c.withoutSession? with
    | some reply => (reply, s)
    | none => if c.handle? = some s.handle then s.answerOwn c else (c.refused, s)

/-- The answer to a request, with the session and the flags of its host after it. -/
def answer (flags : Flags) (c : Callback) : CallbackReply × Session × Flags :=
  match c with
  | .flag name b => (fillOne (name.read.bind flags.get?) b, s, flags)
  | .setFlag name value =>
    match name.read, value.read with
    | some n, some v =>
      match flags.set? n v with
      | some flags => (.status Status.ok, s, flags)
      | none => (.status Status.error, s, flags)
    | _, _ => (.status Status.error, s, flags)
  | c => let (reply, s) := s.answerPlain c; (reply, s, flags)

def noted (c : Callback) (reply : CallbackReply) : Session :=
  { s with history := s.history ++ [(c, reply)] }

def fault (hook : EntryPoint) (status : Status) : HookFault :=
  match s.reports with
  | first :: others => .reported first others
  | [] => .status hook status

theorem answer_of_foreign {c : Callback} {h : UnitHandle} {flags : Flags}
    (hc : c.handle? = some h) (hl : ∀ l m, c ≠ .log h l m) (hne : h ≠ s.handle) :
    s.answer flags c = (c.refused, s, flags) := by
  cases c with
  | log h' l m =>
    simp only [Callback.handle?, Option.some.injEq] at hc
    exact absurd rfl (hc ▸ hl l m)
  | accelVersion | vmVersion | flag | setFlag | cpuFeature => simp [Callback.handle?] at hc
  | _ =>
    simp only [Callback.handle?, Option.some.injEq] at hc
    subst hc
    simp [answer, answerPlain, Callback.withoutSession?, Callback.handle?, hne]

theorem answer_of_own {c : Callback} {flags : Flags} (hc : c.handle? = some s.handle)
    (hr : ∀ message, c ≠ .report s.handle message) (hl : ∀ l m, c ≠ .log s.handle l m) :
    s.answer flags c =
      match s.unit? with
      | some u => ((s.answerUnit u c).1, (s.answerUnit u c).2, flags)
      | none => (c.refused, s, flags) := by
  cases c with
  | log h l m =>
    simp only [Callback.handle?, Option.some.injEq] at hc
    exact absurd rfl (hc ▸ hl l m)
  | report h message =>
    simp only [Callback.handle?, Option.some.injEq] at hc
    exact absurd rfl (hc ▸ hr message)
  | accelVersion | vmVersion | flag | setFlag | cpuFeature => simp [Callback.handle?] at hc
  | _ =>
    simp only [Callback.handle?, Option.some.injEq] at hc
    subst hc
    cases hu : s.unit? <;>
      simp [answer, answerPlain, Callback.withoutSession?, Callback.handle?, answerOwn, hu]

theorem setFlag_cases (f : Flags) (name value : ForeignText) :
    (∃ n v, name.read = some n ∧ value.read = some v ∧ n ∈ f.names ∧
      s.answer f (.setFlag name value) = (.status Status.ok, s, f.define n v)) ∨
    (¬ ∃ n v, name.read = some n ∧ value.read = some v ∧ n ∈ f.names) ∧
      s.answer f (.setFlag name value) = (.status Status.error, s, f) := by
  cases hname : name.read with
  | none => exact .inr ⟨by simp, by simp only [answer, hname]⟩
  | some n =>
    cases hvalue : value.read with
    | none => exact .inr ⟨by simp, by simp only [answer, hname, hvalue]⟩
    | some v =>
      by_cases hn : n ∈ f.names
      · have hset : f.set? n v = some (f.define n v) := if_pos (Flags.mem_names_iff.1 hn)
        exact .inl ⟨n, v, rfl, rfl, hn, by simp only [answer, hname, hvalue, hset]⟩
      · have hset : f.set? n v = none := if_neg (mt Flags.mem_names_iff.2 hn)
        exact .inr ⟨by simpa using hn, by simp only [answer, hname, hvalue, hset]⟩

end Session

end AccelHost
