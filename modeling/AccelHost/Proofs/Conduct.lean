import AccelHost.Proofs.Agreement
import AccelHost.Proofs.StartupChecks

/-!
Hooks that keep to themselves. Such a hook does not look at its handle, asks for its own unit only,
and does not hear what flags are. As long as all that it registers is accepted, its registrations
and its status are settled by the option of its unit; whether all is accepted is a matter of
agreement.
-/
namespace AccelHost

/-- An action that leaves the sessions of the host alone, whatever else it does. -/
def Action.Aside (a : Action) : Prop :=
  ∀ (n : Nested) (m : Machine), ((n.answer a).after m).host.sessions = m.host.sessions

theorem Action.aside_note (e : Event) : (Action.note e).Aside := fun _ _ => rfl

/-- What a hook does that keeps to itself. -/
inductive Deed where
  /-- A request for its own unit, whatever handle is written here. -/
  | ask (c : Callback)
  /-- An action whose answer it does not hear. -/
  | aside (a : Action) (h : a.Aside)

/-- A hook that keeps to itself: what it does next depends on the answers that it hears, and in the
end there is a status. -/
abbrev Conduct := Code Deed (Option CallbackReply) Status

def Session.lone (vmVersion : String) (o : UnitOption) : Session :=
  { handle := 0, vmVersion, registry := { units := [{ handle := 0, option := o }] } }

section Lone

variable (vmVersion : String) (o : UnitOption)

@[simp] theorem Session.handle_lone : (Session.lone vmVersion o).handle = 0 := rfl

@[simp] theorem Session.vmVersion_lone : (Session.lone vmVersion o).vmVersion = vmVersion := rfl

@[simp] theorem Session.unit?_lone :
    (Session.lone vmVersion o).unit? = some { handle := 0, option := o } := rfl

end Lone

namespace Callback

def withHandle (x : UnitHandle) : Callback → Callback
  | unitInfo _ f v p => unitInfo x f v p
  | param _ key b => param x key b
  | register _ entry => register x entry
  | report _ message => report x message
  | log _ level message => log x level message
  | c => c

/-- What a hook hears of an answer that keeps to itself. -/
def heard? : Callback → ActionReply → Option CallbackReply
  | flag .., _ | setFlag .., _ => none
  | _, .called reply => some reply
  | _, _ => none

/-- What it hears if all that it registers is accepted. -/
def ideal? (vmVersion : String) (o : UnitOption) : Callback → Option CallbackReply
  | flag .. | setFlag .. => none
  | register .. => some (.status Status.ok)
  | c => some ((Session.lone vmVersion o).answerPlain (c.withHandle 0)).1

def registered? : Callback → Option (Option RawEntry)
  | register _ entry => some entry
  | _ => none

theorem withHandle_ne_register {c : Callback} (hc : c.registered? = none) (x y : UnitHandle)
    (entry : Option RawEntry) : c.withHandle x ≠ register y entry := by
  cases c <;> simp [withHandle, registered?] at hc ⊢

theorem eq_register {c : Callback} {entry : Option RawEntry} (hc : c.registered? = some entry) :
    ∃ x, c = register x entry := by
  cases c <;> simp [registered?] at hc
  exact ⟨_, congrArg _ hc⟩

/-- But for registrations, a session answers as if its unit were the only one. -/
theorem heard?_answer {c : Callback} {s : Session} {v : DeclaredUnit} (hc : c.registered? = none)
    (hv : s.unit? = some v) (flags : Flags) :
    c.heard? (.called (s.answer flags (c.withHandle s.handle)).1) =
      c.ideal? s.vmVersion v.option := by
  cases c with
  | register => cases hc
  | flag | setFlag => rfl
  | report _ message =>
    cases hm : message.read <;>
      simp [heard?, ideal?, withHandle, Session.answer, Session.answerPlain, withoutSession?,
        handle?, Session.answerOwn, hm]
  | _ =>
    simp [heard?, ideal?, withHandle, Session.answer, Session.answerPlain, withoutSession?, handle?,
      Session.answerOwn, hv, Session.answerUnit]

end Callback

namespace Conduct

def hook : Conduct → UnitHandle → Behaviour Status
  | .done status, _ => .done status
  | .ask (.ask c) next, x =>
    .ask (.call (c.withHandle x)) fun reply => hook (next (c.heard? reply)) x
  | .ask (.aside a _) next, x => .ask a fun _ => hook (next none) x

section Ideal

variable (vmVersion : String) (o : UnitOption)

/-- The status in the end, if all that is registered is accepted. -/
def status : Conduct → Status
  | .done status => status
  | .ask (.ask c) next => status (next (c.ideal? vmVersion o))
  | .ask (.aside ..) next => status (next none)

def registrations : Conduct → List (Option RawEntry)
  | .done _ => []
  | .ask (.ask c) next => c.registered?.toList ++ registrations (next (c.ideal? vmVersion o))
  | .ask (.aside ..) next => registrations (next none)

/-- The entries that are registered, if all are accepted. -/
def entries (c : Conduct) : List Entry :=
  (c.registrations vmVersion o).filterMap (checked? o.displayName)

/-- A conduct that succeeds if no other unit is in its way. -/
structure Sound (c : Conduct) : Prop where
  checked : ∀ reg ∈ c.registrations vmVersion o, (checked? o.displayName reg).isSome
  status : c.status vmVersion o = Status.ok

end Ideal

end Conduct

/-- A session of a unit, after some entries were registered. -/
structure Session.Serves (s : Session) (u : DeclaredUnit) (vmVersion : String) (es : List Entry) :
    Prop where
  handle : s.handle = u.handle
  vmVersion : s.vmVersion = vmVersion
  unit? : ∃ v, s.unit? = some v ∧ v.option = u.option
  collects : s.registry.Collects es

theorem Session.Answers.handle_eq {s s' : Session} {log : List (Callback × CallbackReply)}
    (h : s.Answers log s') : s'.handle = s.handle := by
  induction h with
  | nil => rfl
  | @cons s s' c log flags _ ih => exact ih.trans (s.grows_answer flags c).handle

namespace Conduct

variable {n : Nested} {m : Machine} {s : Session} {outer : List Session} {u : DeclaredUnit}
  {vmVersion : String} {es : List Entry} {ideal status : Status} {regs : List (Option RawEntry)}
  {calls : List (Option RawEntry × CallbackReply)}

/-! ### One request -/

/-- How a session answers a request of its unit. -/
inductive Answered (u : DeclaredUnit) (vmVersion : String) (es : List Entry) (c : Callback) :
    CallbackReply → Session → Prop where
  | other {reply : CallbackReply} {s : Session} : c.registered? = none →
      c.heard? (.called reply) = c.ideal? vmVersion u.option → s.Serves u vmVersion es →
      Answered u vmVersion es c reply s
  | accepted {y : UnitHandle} {entry : Option RawEntry} {s : Session} : c = .register y entry →
      registrationFaults u.name es entry = [] →
      s.Serves u vmVersion (es ++ (accepted? u (entry, .status Status.ok)).toList) →
      Answered u vmVersion es c (.status Status.ok) s
  | rejected {y : UnitHandle} {entry : Option RawEntry} {s : Session} : c = .register y entry →
      registrationFaults u.name es entry ≠ [] → s.Serves u vmVersion es →
      Answered u vmVersion es c (.status Status.error) s

theorem serves_noted {es' : List Entry} (h : s.Serves u vmVersion es) (flags : Flags) (c : Callback)
    (hr : (s.answer flags c).2.1.registry.Collects es') :
    ((s.answer flags c).2.1.noted c (s.answer flags c).1).Serves u vmVersion es' := by
  have hgrows := s.grows_answer flags c
  obtain ⟨v, hunit, hoption⟩ := h.unit?
  obtain ⟨v', hunit', hoption'⟩ := Session.unit?_after_answer hunit flags c
  exact ⟨hgrows.handle.trans h.handle, hgrows.vmVersion.trans h.vmVersion,
    ⟨v', hunit', hoption'.trans hoption⟩, hr⟩

theorem answered (h : s.Serves u vmVersion es) (flags : Flags) (c : Callback) :
    Answered u vmVersion es c (s.answer flags (c.withHandle u.handle)).1
      ((s.answer flags (c.withHandle u.handle)).2.1.noted (c.withHandle u.handle)
        (s.answer flags (c.withHandle u.handle)).1) := by
  have hserves {es' : List Entry}
      (hr : (s.answer flags (c.withHandle u.handle)).2.1.registry.Collects es') :=
    serves_noted h flags (c.withHandle u.handle) hr
  obtain ⟨v, hunit, hoption⟩ := h.unit?
  cases hreg : c.registered? with
  | none =>
    have hother := Session.answer_other (s := s)
      (fun entry => c.withHandle_ne_register hreg u.handle s.handle entry) flags
    have hheard := c.heard?_answer hreg hunit flags
    rw [h.handle, h.vmVersion, hoption] at hheard
    exact .other hreg hheard (hserves (hother.1.symm ▸ h.collects))
  | some entry =>
    obtain ⟨y, rfl⟩ := Callback.eq_register hreg
    have hanswer := Session.answer_register hunit flags entry
    rw [h.handle] at hanswer
    have hend := Session.register_end hunit h.handle (congrArg UnitOption.displayName hoption)
      h.collects entry
    dsimp only [Callback.withHandle] at hserves ⊢
    rw [hanswer] at hserves ⊢
    generalize s.register v entry = registered at hend hserves ⊢
    cases hend with
    | accepted hnone hcollects => exact .accepted rfl hnone (hserves hcollects)
    | rejected herr =>
      refine .rejected rfl (fun hnone => ?_) (hserves h.collects)
      rw [hnone] at herr
      cases herr

theorem answer_call (hs : m.host.sessions = s :: outer) (c : Callback) :
    ∃ flags, (n.answer (.call c)).result m = .called (s.answer flags c).1 ∧
      ((n.answer (.call c)).after m).host.sessions =
        (s.answer flags c).2.1.noted c (s.answer flags c).1 :: outer := by
  refine ⟨m.host.flags, ?_⟩
  rcases hanswer : s.answer m.host.flags c with ⟨reply, s', flags⟩
  have hfirst : answerInnermost c (m.host :: m.waiting) = some (reply,
      { m.host with sessions := s'.noted c reply :: outer }.setFlags flags :: m.waiting) := by
    simp only [answerInnermost, hs, hanswer]
  -- What is logged goes into the journal, which no session looks at.
  have hanswered (j : List Event) :
      (Work.answered c).result { m with journal := j } = reply ∧
        ((Work.answered c).after { m with journal := j }).host.sessions =
          s'.noted c reply :: outer := by
    simp only [Work.answered, Work.result_bind, Work.after_bind, Work.result_get, Work.after_get,
      hfirst]
    exact ⟨rfl, rfl⟩
  cases hl : c.logged? with
  | none =>
    obtain ⟨hresult, hafter⟩ := hanswered m.journal
    simp only [Nested.answer, Work.callback, hl, Work.result_bind, Work.after_bind]
    exact ⟨congrArg ActionReply.called hresult, hafter⟩
  | some message =>
    obtain ⟨hresult, hafter⟩ := hanswered (m.journal ++ [.log message.1 message.2])
    simp only [Nested.answer, Work.callback, hl, Work.result_bind, Work.after_bind]
    exact ⟨congrArg ActionReply.called hresult, hafter⟩

/-! ### Whole hooks -/

/-- How the registrations of a hook call went, and its status: either all are accepted and it came
as it is settled, or something stood against one. -/
inductive Goes (u : DeclaredUnit) (before : List Entry) (regs : List (Option RawEntry))
    (ideal : Status) : List (Option RawEntry × CallbackReply) → Status → Prop where
  | accepted : standing u before regs = [] →
      Goes u before regs ideal (regs.map fun reg => (reg, .status Status.ok)) ideal
  | rejected {calls : List (Option RawEntry × CallbackReply)} {status : Status} :
      standing u before regs ≠ [] → rejections u before calls ≠ [] →
      Goes u before regs ideal calls status

theorem Goes.cons {entry : Option RawEntry}
    (h : Goes u (es ++ (accepted? u (entry, .status Status.ok)).toList) regs ideal calls status)
    (hnone : registrationFaults u.name es entry = []) :
    Goes u es (entry :: regs) ideal ((entry, .status Status.ok) :: calls) status := by
  have hstanding : standing u es (entry :: regs) =
      standing u (es ++ (accepted? u (entry, .status Status.ok)).toList) regs := by
    rw [standing, hnone, List.nil_append]
  cases h with
  | accepted hall => exact .accepted (hstanding.trans hall)
  | rejected hsome hcalls => exact .rejected (hstanding ▸ hsome) hcalls

theorem Goes.of_rejected {entry : Option RawEntry}
    (hsome : registrationFaults u.name es entry ≠ []) :
    Goes u es (entry :: regs) ideal ((entry, .status Status.error) :: calls) status := by
  have hrejections : rejections u es ((entry, .status Status.error) :: calls) =
      registrationFaults u.name es entry ++ rejections u (es ++ []) calls := rfl
  refine .rejected (List.append_ne_nil_of_left_ne_nil hsome _) ?_
  rw [hrejections]
  exact List.append_ne_nil_of_left_ne_nil hsome _

/-- A hook that keeps to itself goes as it is settled, unless a registration is rejected. -/
theorem runCode_hook (c : Conduct) (hs : m.host.sessions = s :: outer)
    (h : s.Serves u vmVersion es) :
    ∃ s' log, ((n.runCode (c.hook u.handle)).after m).host.sessions = s' :: outer ∧
      s.Answers log s' ∧
      Goes u es (c.registrations vmVersion u.option) (c.status vmVersion u.option)
        (registrationsOf u.handle log) ((n.runCode (c.hook u.handle)).result m) := by
  induction c generalizing m s es with
  | done status => exact ⟨s, [], hs, .nil s, .accepted rfl⟩
  | ask deed next ih =>
    cases deed with
    | aside a ha =>
      have hs' : ((n.answer a).after m).host.sessions = s :: outer := (ha n m).trans hs
      exact ih none hs' h
    | ask c =>
      obtain ⟨flags, hresult, hsessions⟩ := answer_call (n := n) hs (c.withHandle u.handle)
      have hanswered := answered h flags c
      have hcons {s' : Session} {log : List (Callback × CallbackReply)}
          (hlog : Session.Answers ((s.answer flags (c.withHandle u.handle)).2.1.noted
            (c.withHandle u.handle) (s.answer flags (c.withHandle u.handle)).1) log s') :=
        Session.Answers.cons flags hlog
      generalize (s.answer flags (c.withHandle u.handle)).2.1.noted (c.withHandle u.handle)
        (s.answer flags (c.withHandle u.handle)).1 = s₁ at hsessions hanswered hcons
      generalize (s.answer flags (c.withHandle u.handle)).1 = reply at hresult hanswered hcons
      have hrun : n.runCode (hook (Code.ask (Deed.ask c) next) u.handle) =
          n.answer (.call (c.withHandle u.handle)) >>= fun reply =>
            n.runCode (hook (next (c.heard? reply)) u.handle) := rfl
      have hnext {es' : List Entry} (h' : s₁.Serves u vmVersion es') :=
        ih (c.heard? (.called reply)) hsessions h'
      rw [hrun, Work.result_bind, Work.after_bind, hresult]
      cases hanswered with
      | other hreg hheard hserves =>
        obtain ⟨s', log, hafter, hanswers, hgoes⟩ := hnext hserves
        refine ⟨s', _, hafter, hcons hanswers, ?_⟩
        rw [Session.registrationsOf_cons_of_ne
          fun entry => c.withHandle_ne_register hreg u.handle _ entry]
        simp only [registrations, status, hreg, Option.toList_none, List.nil_append, ← hheard]
        exact hgoes
      | accepted hc hnone hserves =>
        subst hc
        obtain ⟨s', log, hafter, hanswers, hgoes⟩ := hnext hserves
        refine ⟨s', _, hafter, hcons hanswers, ?_⟩
        rw [Callback.withHandle, Session.registrationsOf_cons]
        exact hgoes.cons hnone
      | rejected hc hsome hserves =>
        subst hc
        obtain ⟨s', log, hafter, hanswers, -⟩ := hnext hserves
        refine ⟨s', _, hafter, hcons hanswers, ?_⟩
        rw [Callback.withHandle, Session.registrationsOf_cons]
        exact .of_rejected hsome

theorem rejections_of_ok (u : DeclaredUnit) (es : List Entry) (regs : List (Option RawEntry)) :
    rejections u es (regs.map fun reg => (reg, .status Status.ok)) = [] := by
  induction regs generalizing es with
  | nil => rfl
  | cons reg regs ih => exact ih _

theorem acceptedEntries_of_ok (u : DeclaredUnit) (regs : List (Option RawEntry)) :
    acceptedEntries u (regs.map fun reg => (reg, .status Status.ok)) =
      (regs.filterMap (checked? u.name)).map (·.ownedBy u.handle) := by
  rw [acceptedEntries, List.filterMap_map, List.map_filterMap]
  exact congrArg (List.filterMap · regs) (funext (accepted?_ok u))

theorem callHook_goes (c : Conduct) (n : Nested) (point : EntryPoint) {r : Registry}
    (hv : ∃ v, r.unit? u.handle = some v ∧ v.option = u.option) (hr : r.Collects es) :
    Goes u es (c.registrations m.host.settings.vmVersion u.option)
      (c.status m.host.settings.vmVersion u.option)
      ((Startup.callHook n point c.hook r u.handle).result m).calls
      ((Startup.callHook n point c.hook r u.handle).result m).status := by
  let s : Session :=
    { handle := u.handle, vmVersion := m.host.settings.vmVersion, registry := r }
  let m₁ : Machine := { m with trace := m.trace ++ [.entered point u.handle] }
  have hserves : s.Serves u m.host.settings.vmVersion es := ⟨rfl, rfl, hv, hr⟩
  obtain ⟨s', log, hafter, hanswers, hgoes⟩ :=
    runCode_hook (n := n) (m := m₁.push s) c rfl hserves
  have hsession : ((Startup.callHook n point c.hook r u.handle).result m).session = s' := by
    change ((n.runCode (c.hook u.handle)).after (m₁.push s)).host.sessions.headD s = s'
    rw [hafter]
    rfl
  have hhistory : s'.history = [] ++ log := hanswers.history_eq
  rw [Startup.HookEnd.calls, hsession, hhistory, hanswers.handle_eq]
  exact hgoes

/-! ### Contributions -/

theorem unit_of_mem_entries (c : Conduct) {o : UnitOption} {e : Entry}
    (he : e ∈ c.entries vmVersion o) : e.unit = o.displayName := by
  obtain ⟨reg, -, hreg⟩ := List.mem_filterMap.1 he
  exact unit_of_checked? hreg

theorem standing_eq_nil_and_status_iff (vmVersion : String) (c : Conduct)
    (hes : es.Pairwise Entry.Agrees) :
    (standing u es (c.registrations vmVersion u.option) = [] ∧
        c.status vmVersion u.option = Status.ok) ↔
      c.Sound vmVersion u.option ∧
        (es ++ c.entries vmVersion u.option).Pairwise Entry.Agrees := by
  have hcongr : (es ++ (c.entries vmVersion u.option).map (·.ownedBy u.handle)).Pairwise
      Entry.Agrees ↔ (es ++ c.entries vmVersion u.option).Pairwise Entry.Agrees :=
    Entry.pairwise_agrees_congr (by simp)
  rw [standing_eq_nil_iff hes, ← hcongr]
  constructor
  · rintro ⟨⟨hchecked, hpairs⟩, hstatus⟩
    exact ⟨⟨hchecked, hstatus⟩, hpairs⟩
  · rintro ⟨⟨hchecked, hstatus⟩, hpairs⟩
    exact ⟨⟨hchecked, hpairs⟩, hstatus⟩

theorem callHook_contributes (c : Conduct) (n : Nested) (point : EntryPoint) {r : Registry}
    (hv : ∃ v, r.unit? u.handle = some v ∧ v.option = u.option) (hr : r.Collects es)
    (hes : es.Pairwise Entry.Agrees) (failed : String → HookFault → StartupError) :
    let e := (Startup.callHook n point c.hook r u.handle).result m
    Contributes (c.Sound m.host.settings.vmVersion u.option)
      (c.entries m.host.settings.vmVersion u.option) es (e.faults u es point failed)
      (acceptedEntries u e.calls) := by
  intro e
  have hgoes : Goes u es _ _ e.calls e.status := callHook_goes c n point hv hr
  have hsound := standing_eq_nil_and_status_iff (u := u) m.host.settings.vmVersion c hes
  unfold Startup.HookEnd.faults
  generalize failed u.name (e.session.fault point e.status) = fault
  generalize e.calls = calls at hgoes ⊢
  generalize e.status = status at hgoes ⊢
  cases hgoes with
  | accepted hnone =>
    rw [rejections_of_ok, acceptedEntries_of_ok, List.nil_append]
    refine ⟨?_, fun _ => by simp [entries, DeclaredUnit.name]⟩
    rw [← hsound]
    simp [hnone]
  | rejected hsome hrejections =>
    refine ⟨iff_of_false (List.append_ne_nil_of_left_ne_nil hrejections _) fun h => ?_, fun h => ?_⟩
    · exact hsome (hsound.2 h).1
    · exact absurd (List.append_eq_nil_iff.1 h).1 hrejections

end Conduct

end AccelHost
