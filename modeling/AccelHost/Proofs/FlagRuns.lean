import AccelHost.Proofs.FlagLog
import AccelHost.Proofs.OwnOption

/-!
Flags in a run. `h.Logs log h'` tells what is done with the flags of a host while it becomes
another one: the host defines some, and its innermost session answers requests. Every run of
operations is told so, with the requests of all hooks in it, and it has no other definitions than
those of the settings and of the host itself. So a unit can change flags and add none.
-/
namespace AccelHost

open Holding Text

/-! ### Hosts -/

/-- A host once its innermost session has answered a request. -/
def Host.answered (h : Host) (s : Session) (outer : List Session) (c : Callback) : Host :=
  let (reply, s, flags) := s.answer h.flags c
  { h with sessions := s.noted c reply :: outer }.setFlags flags

/-- From a host to a later one, what is done with its flags. While nothing is recorded, neither
flags nor sessions change, but for hook calls that begin and end. -/
inductive Host.Logs : Host → List FlagStep → Host → Prop where
  | rest {h h' : Host} : h'.flags = h.flags → h'.sessions = h.sessions → Logs h [] h'
  | enter {h : Host} {s : Session} : Logs h [] { h with sessions := s :: h.sessions }
  | leave {h : Host} : Logs h [] { h with sessions := h.sessions.tail }
  | define {h : Host} {name value : String} :
      Logs h [.define name value] (h.setFlags (h.flags.define name value))
  | request {h : Host} {s : Session} {outer : List Session} {c : Callback} :
      h.sessions = s :: outer →
      Logs h [.asked c (s.answer h.flags c).1] (h.answered s outer c)
  | trans {h h' h'' : Host} {log log' : List FlagStep} :
      Logs h log h' → Logs h' log' h'' → Logs h (log ++ log') h''

/-- Flags of a host are set and looked up by units only. -/
def Host.Asked (h h' : Host) : Prop :=
  ∃ log, h.Logs log h' ∧ log.filterMap FlagStep.defined? = []

namespace Host

variable {h h' h'' : Host} {log : List FlagStep}

/-- What is recorded may come about, and the flags can be read off it. -/
theorem Logs.replays (hs : h.Logs log h') :
    h.flags.Replays log ∧ h'.flags = h.flags.after log := by
  induction hs with
  | rest hf => exact ⟨trivial, hf⟩
  | enter | leave => exact ⟨trivial, rfl⟩
  | define => exact ⟨⟨trivial, trivial⟩, rfl⟩
  | @request h s outer c => exact ⟨⟨⟨s, rfl⟩, trivial⟩, (Flags.after_asked s h.flags c).symm⟩
  | trans _ _ ih ih' =>
    rw [ih.2] at ih'
    exact ⟨Flags.replays_append.2 ⟨ih.1, ih'.1⟩, by rw [ih'.2, Flags.after_append]⟩

theorem Asked.refl (h : Host) : h.Asked h := ⟨[], .rest rfl rfl, rfl⟩

theorem Asked.rest (hf : h'.flags = h.flags) (hs : h'.sessions = h.sessions) : h.Asked h' :=
  ⟨[], .rest hf hs, rfl⟩

theorem Asked.trans (hs : h.Asked h') (hs' : h'.Asked h'') : h.Asked h'' := by
  obtain ⟨log, hlog, hd⟩ := hs
  obtain ⟨log', hlog', hd'⟩ := hs'
  exact ⟨log ++ log', hlog.trans hlog', by rw [List.filterMap_append, hd, hd', List.append_nil]⟩

theorem asked_of_answerInnermost {c : Callback} {hosts hosts' : List Host}
    {reply : CallbackReply} (ha : answerInnermost c hosts = some (reply, hosts')) :
    List.Forall₂ Asked hosts hosts' := by
  induction hosts generalizing reply hosts' with
  | nil => cases ha
  | cons host rest ih =>
    unfold answerInnermost at ha
    split at ha
    · rename_i s outer hs
      cases ha
      exact .cons ⟨_, .request hs, rfl⟩ (List.forall₂_same.2 fun h _ => .refl h)
    · obtain ⟨⟨r, rest'⟩, hr, he⟩ := Option.map_eq_some_iff.1 ha
      cases he
      exact .cons (.refl host) (ih hr)

theorem logs_defines (ds : List (String × String)) (h : Host) :
    h.Logs (ds.map fun d => .define d.1 d.2)
      (h.setFlags (ds.foldl (fun f d => f.define d.1 d.2) h.flags)) := by
  induction ds generalizing h with
  | nil => exact .rest rfl rfl
  | cons d ds ih => exact .trans .define (ih (h.setFlags (h.flags.define d.1 d.2)))

end Host

/-! ### Machines -/

section

variable {n : Nested} {G : List UnitHandle} {X Y : List Holding} {m m' : Machine}

/-- Whatever is done, requests apart, leaves the flags of every host as they are. -/
theorem Moves.asked (hm : Moves X m Y m') :
    List.Forall₂ Host.Asked (m.host :: m.waiting) (m'.host :: m'.waiting) := by
  have hwaiting (m : Machine) : List.Forall₂ Host.Asked m.waiting m.waiting :=
    List.forall₂_same.2 fun h _ => .refl h
  induction hm with
  | trans _ _ ih ih' => exact forall₂_trans (fun _ _ _ h h' => h.trans h') ih ih'
  | @quiet X m h j stuck hq hs =>
    rw [hq.rest]
    exact .cons (.rest rfl rfl) (hwaiting m)
  | callback hc => exact Host.asked_of_answerInnermost hc
  | @hook _ _ m _ s _ ih =>
    obtain ⟨hh, hw⟩ := List.forall₂_cons.1 ih
    have henter : m.host.Asked (m.push s).host := ⟨[], .enter, rfl⟩
    exact .cons ((henter.trans hh).trans ⟨[], .leave, rfl⟩) hw
  | @nested X m m' p _ ih =>
    -- The flags of the program are gone with its host.
    obtain ⟨-, hw⟩ := List.forall₂_cons.1 ih
    unfold Machine.leave
    cases hm : m'.waiting with
    | nil =>
      rw [hm] at hw
      cases hw
    | cons host waiting =>
      rw [hm] at hw
      exact hw
  | @cache X m =>
    obtain ⟨r, b, he⟩ := m.host.modifyReplacements_eq _
    rw [Machine.withHost, he]
    exact .cons (.rest rfl rfl) (hwaiting m)
  | @perm _ _ m | @discard _ m => exact .cons (.refl m.host) (hwaiting m)
  | _ => exact .cons (.rest rfl rfl) (hwaiting _)

/-- What a host does: it defines a flag, or carries out an operation. -/
inductive HostStep where
  | define (name value : String)
  | operation (op : Op)

namespace HostStep

def perform (n : Nested) : HostStep → Work Unit
  | define name value => Work.modifyHost fun h => h.setFlags (h.flags.define name value)
  | operation op => do let _ ← op.answer n

def defined? : HostStep → Option String
  | define name _ => some name
  | operation _ => none

theorem logs_perform (hn : n.Lawful) (ho : m.Orderly G) (step : HostStep) :
    ((step.perform n).after m).Orderly G ∧ ∃ log, m.host.Logs log ((step.perform n).after m).host ∧
      log.filterMap FlagStep.defined? = step.defined?.toList := by
  cases step with
  | define name value =>
    exact ⟨ho.of_same rfl { Host.Same.refl m.host with } rfl, _, .define, rfl⟩
  | operation op =>
    have hm : Moves [] m [] ((op.answer n).after m) := op.answer_carries (G := G) hn ho
    exact ⟨(hm.orderly (G := G) ho).1, (List.forall₂_cons.1 hm.asked).1⟩

theorem logs_performs (hn : n.Lawful) (ho : m.Orderly G) (steps : List HostStep) :
    ((steps.mapM (perform n)).after m).Orderly G ∧
      ∃ log, m.host.Logs log ((steps.mapM (perform n)).after m).host ∧
        log.filterMap FlagStep.defined? = steps.filterMap defined? := by
  induction steps generalizing m with
  | nil => exact ⟨ho, [], .rest rfl rfl, rfl⟩
  | cons step steps ih =>
    obtain ⟨ho', log, hlog, hd⟩ := logs_perform hn ho step
    obtain ⟨ho'', log', hlog', hd'⟩ := ih ho'
    rw [List.mapM_cons]
    refine ⟨ho'', log ++ log', hlog.trans hlog', ?_⟩
    rw [List.filterMap_append, hd, hd', List.filterMap_cons]
    cases step.defined? <;> rfl

end HostStep

end

/-! ### Settings -/

namespace Settings

/-- The flags that some settings define, with their values. A reset takes back all before it. -/
def definitions (settings : List Setting) : List (String × String) :=
  settings.foldl (fun ds setting =>
    match setting with
    | .flag name value => ds ++ [(name, value)]
    | .default => []
    | _ => ds) []

theorem flags_ofList (settings : List Setting) : (ofList settings).flags =
    (definitions settings).foldl (fun f d => f.define d.1 d.2) {} := by
  induction settings using List.reverseRecOn with
  | nil => rfl
  | append_singleton settings setting ih =>
    rw [ofList, definitions, List.foldl_append, List.foldl_append, ← ofList, ← definitions]
    cases setting with
    | flag name value => simp [apply, ih]
    | default => rfl
    | _ => exact ih

end Settings

theorem Host.logs_ofProgram {p : Program} {settings : List Setting}
    (hp : p.settings = Settings.ofList settings) :
    ((Host.ofProgram p).setFlags {}).Logs
      ((Settings.definitions settings).map fun d => .define d.1 d.2) (.ofProgram p) := by
  have hflags := Settings.flags_ofList settings
  rw [← hp] at hflags
  have hdefines :=
    logs_defines (Settings.definitions settings) ((Host.ofProgram p).setFlags {})
  have hhost : ((Host.ofProgram p).setFlags {}).setFlags p.settings.flags = .ofProgram p := rfl
  rw [← hhost, hflags]
  exact hdefines

/-! ### Hooks -/

namespace Startup

variable {n : Nested} {G : List UnitHandle} {m m' : Machine} {x : UnitHandle} {r : Registry}
  {point : EntryPoint} {hook : UnitHandle → Behaviour Status}

/-- From a machine that calls a hook to each moment of the hook, and from there to its end. -/
theorem asked_of_reaches (hn : n.Lawful) (ho : m.Orderly G) {rest : Behaviour Status}
    (hr : n.Reaches (hook x) (begun point r x m) rest m') :
    m.host.Asked m'.host ∧ m'.host.Asked ((callHook n point hook r x).after m).host := by
  have hbegun : (begun point r x m).Orderly G := orderly_begun ho
  have hmoves : Moves [] (begun point r x m) [] m' := hr.moves hn hbegun
  have hrest : Moves [] m' [] ((n.runCode rest).after m') :=
    hn.runCode rest (hmoves.orderly (G := G) hbegun).1
  have henter : m.host.Asked (begun point r x m).host := ⟨[], .enter, rfl⟩
  have hleave : ((n.runCode rest).after m').host.Asked
      ((callHook n point hook r x).after m).host := by
    rw [hr.after_runCode]
    exact ⟨[], .leave, rfl⟩
  exact ⟨henter.trans (List.forall₂_cons.1 hmoves.asked).1,
    (List.forall₂_cons.1 hrest.asked).1.trans hleave⟩

end Startup

/-! ### The kit -/

namespace Kit

variable {n : Nested} {m : Machine} {s : Session} {f : Flags} {name value : String}

theorem scope?_of_setFlag (hs : m.scope? = some (s, f))
    (h : (n.runCode (setFlag name value)).result m = true) :
    '\x00' ∉ name.toList ∧ '\x00' ∉ value.toList ∧
      ∃ s', ((n.runCode (setFlag name value)).after m).scope? = some (s', f.define name value) := by
  unfold setFlag at h ⊢
  cases hname : foreign? name with
  | none =>
    rw [hname] at h
    cases h
  | some t =>
    cases hvalue : foreign? value with
    | none =>
      rw [hname, hvalue] at h
      cases h
    | some u =>
      obtain ⟨hnul, rfl⟩ := foreign?_eq_some_iff.1 hname
      obtain ⟨hnul', rfl⟩ := foreign?_eq_some_iff.1 hvalue
      obtain ⟨hresult, hscope⟩ := runCode_call n hs (.setFlag (.ofString name) (.ofString value))
      simp only [hname, hvalue, runCode_bind, Work.result_bind, hresult] at h
      simp only [runCode_bind, Work.after_bind]
      refine ⟨hnul, hnul', ?_⟩
      rcases s.setFlag_cases f (.ofString name) (.ofString value) with ⟨k, v, hset⟩ | ⟨-, ha⟩
      · obtain ⟨hk, hv, -, ha⟩ := hset
        rw [read_ofString hnul] at hk
        rw [read_ofString hnul'] at hv
        cases hk
        cases hv
        rw [ha] at hscope
        exact ⟨_, hscope⟩
      · rw [ha] at h
        cases h

theorem result_flag_legible (n : Nested) (hs : m.scope? = some (s, f))
    (hname : '\x00' ∉ name.toList) :
    (n.runCode (flag name)).result m = (f.get? name).map (legible paramRoom) := by
  obtain ⟨hcall, -⟩ := runCode_call n hs (.flag (.ofString name) (room paramRoom))
  have hanswer : (s.answer f (.flag (.ofString name) (room paramRoom))).1 =
      fillOne (f.get? name) (room paramRoom) := by
    rw [Session.answer, read_ofString hname, Option.bind_some]
  exact result_lookUp hname (hcall.trans hanswer)

theorem result_flag (n : Nested) (hs : m.scope? = some (s, f)) (hname : '\x00' ∉ name.toList)
    (hshort : ∀ v ∈ f.get? name, byteLength v.toList < paramRoom) :
    (n.runCode (flag name)).result m = (f.get? name).map untilNul := by
  rw [result_flag_legible n hs hname]
  exact Option.map_congr fun v hv => legible_of_lt (hshort v hv)

end Kit

end AccelHost
