import AccelHost.Kit
import AccelHost.Proofs.Conduct
import AccelHost.Proofs.Encoding
import AccelHost.Proofs.Isolation

/-!
How hook calls end. A session answers each registration of its unit by what stands against it, and
it keeps the reports that can be read. Both are in its history, so the end of a hook call can be
told from what the hook has asked for.
-/
namespace AccelHost

/-- What a unit has reported in a history. A text that cannot be read is none of it, nor is one that
comes with the handle of another unit. -/
def reportsOf (x : UnitHandle) (log : List (Callback × CallbackReply)) : List String :=
  log.filterMap fun
    | (.report handle message, _) => if handle = x then message.read else none
    | _ => none

/-- Registrations that are answered by what stands against them, after some entries. -/
inductive Judged (u : DeclaredUnit) : List Entry →
    List (Option RawEntry × CallbackReply) → Prop where
  | nil {es : List Entry} : Judged u es []
  | accepted {es : List Entry} {entry : Option RawEntry}
      {calls : List (Option RawEntry × CallbackReply)} :
      registrationFaults u.name es entry = [] →
      Judged u (es ++ (accepted? u (entry, .status Status.ok)).toList) calls →
      Judged u es ((entry, .status Status.ok) :: calls)
  | rejected {es : List Entry} {entry : Option RawEntry} {err : StartupError}
      {calls : List (Option RawEntry × CallbackReply)} :
      registrationFaults u.name es entry = [err] → Judged u es calls →
      Judged u es ((entry, .status Status.error) :: calls)

theorem Status.error_ne_ok : CallbackReply.status Status.error ≠ .status Status.ok := by decide

theorem accepted?_of_error (u : DeclaredUnit) (entry : Option RawEntry) :
    accepted? u (entry, .status Status.error) = none := if_neg Status.error_ne_ok

/-- At most one thing stands against a registration: the first that is wrong with it. -/
theorem registrationFaults_of_head {unit : String} {es : List Entry} {entry : Option RawEntry}
    {err : StartupError} (h : (registrationFaults unit es entry).head? = some err) :
    registrationFaults unit es entry = [err] := by
  unfold registrationFaults at h ⊢
  cases entry with
  | none =>
    cases h
    rfl
  | some raw =>
    cases hcheck : raw.check unit with
    | error fault =>
      simp only [hcheck] at h ⊢
      cases h
      rfl
    | ok e =>
      simp only [hcheck, Registry.conflicts, List.append_nil] at h ⊢
      cases hconflict : Registry.conflict? unit es e with
      | none =>
        rw [hconflict] at h
        cases h
      | some owner =>
        rw [hconflict] at h
        cases h
        rfl

namespace Judged

variable {u : DeclaredUnit} {es : List Entry} {calls : List (Option RawEntry × CallbackReply)}

theorem reply_eq {pre post : List (Option RawEntry × CallbackReply)} {entry : Option RawEntry}
    {reply : CallbackReply} (h : Judged u es (pre ++ (entry, reply) :: post)) :
    reply = .status
      (if registrationFaults u.name (es ++ acceptedEntries u pre) entry = [] then Status.ok
      else Status.error) := by
  induction pre generalizing es with
  | nil =>
    have hnone : es ++ acceptedEntries u [] = es := List.append_nil es
    rw [hnone]
    cases h with
    | accepted hfaults hrest => rw [if_pos hfaults]
    | rejected hfaults hrest => rw [hfaults, if_neg (List.cons_ne_nil _ _)]
  | cons call pre ih =>
    rw [acceptedEntries_cons, ← List.append_assoc]
    cases h with
    | accepted hfaults hrest => exact ih hrest
    | rejected hfaults hrest =>
      rw [accepted?_of_error, Option.toList_none, List.append_nil]
      exact ih hrest

theorem cases_rejected (h : Judged u es calls) :
    ((∀ call ∈ calls, call.2 = .status Status.ok) ∧ rejections u es calls = []) ∨
      ∃ pre entry post err, calls = pre ++ (entry, .status Status.error) :: post ∧
        (∀ call ∈ pre, call.2 = .status Status.ok) ∧
        registrationFaults u.name (es ++ acceptedEntries u pre) entry = [err] ∧
        (rejections u es calls).head? = some err := by
  induction h with
  | nil => exact .inl ⟨List.forall_mem_nil _, rfl⟩
  | @accepted es entry calls hfaults hrest ih =>
    rw [rejections, if_pos rfl, List.nil_append]
    rcases ih with ⟨hall, hnone⟩ | ⟨pre, entry', post, err, rfl, hall, hfirst, hhead⟩
    · exact .inl ⟨List.forall_mem_cons.2 ⟨rfl, hall⟩, hnone⟩
    · refine .inr ⟨(entry, .status Status.ok) :: pre, entry', post, err, rfl,
        List.forall_mem_cons.2 ⟨rfl, hall⟩, ?_, hhead⟩
      rw [acceptedEntries_cons, ← List.append_assoc]
      exact hfirst
  | @rejected es entry err calls hfaults hrest ih =>
    have hnone : es ++ acceptedEntries u [] = es := List.append_nil es
    refine .inr ⟨[], entry, calls, err, rfl, List.forall_mem_nil _, ?_, ?_⟩
    · rw [hnone, hfaults]
    · rw [rejections, if_neg Status.error_ne_ok, hfaults]
      rfl

end Judged

/-! ### Sessions -/

namespace Session

variable {s s' : Session} {u v : DeclaredUnit} {es : List Entry}
  {log : List (Callback × CallbackReply)}

theorem Answers.judged (h : s.Answers log s') (hv : ∃ v, s.unit? = some v ∧ v.name = u.name)
    (hhandle : s.handle = u.handle) (hr : s.registry.Collects es) :
    Judged u es (registrationsOf u.handle log) := by
  induction h generalizing es with
  | nil => exact .nil
  | @cons s s' c log flags hrest ih =>
    have hhandle' := (s.grows_answer flags c).handle.trans hhandle
    obtain ⟨v, hunit, hname⟩ := hv
    obtain ⟨v', hunit', hoption⟩ := unit?_after_answer hunit flags c
    have hname' : v'.name = u.name := (congrArg UnitOption.displayName hoption).trans hname
    by_cases hc : ∃ entry, c = .register u.handle entry
    · obtain ⟨entry, rfl⟩ := hc
      have hanswer := answer_register hunit flags entry
      rw [hhandle] at hanswer
      have hend := register_end hunit hhandle hname hr entry
      rw [hanswer] at ih hhandle' hunit' ⊢
      rw [registrationsOf_cons]
      generalize s.register v entry = answered at hend ih hunit' hhandle' ⊢
      cases hend with
      | accepted hfaults hcollects =>
        exact .accepted hfaults (ih ⟨v', hunit', hname'⟩ hhandle' hcollects)
      | rejected hfaults =>
        exact .rejected (registrationFaults_of_head hfaults) (ih ⟨v', hunit', hname'⟩ hhandle' hr)
    · have hother := answer_other (s := s) (fun entry h => hc ⟨entry, hhandle ▸ h⟩) flags
      rw [registrationsOf_cons_of_ne fun entry h => hc ⟨entry, h⟩]
      apply ih ⟨v', hunit', hname'⟩ hhandle'
      rw [noted, hother.1]
      exact hr

theorem reports_register (s : Session) (u : DeclaredUnit) (entry : Option RawEntry) :
    (s.register u entry).2.reports = s.reports := by
  unfold register
  dsimp only
  split <;> rfl

theorem reports_answerUnit (s : Session) (u : DeclaredUnit) (c : Callback) :
    (s.answerUnit u c).2.reports = s.reports := by
  cases c with
  | register x entry => exact s.reports_register u entry
  | _ => rfl

theorem reports_answerOwn (s : Session) (c : Callback) (reply : CallbackReply)
    (hc : c.handle? = some s.handle) :
    (s.answerOwn c).2.reports = s.reports ++ reportsOf s.handle [(c, reply)] := by
  cases c with
  | report x message =>
    have hx : x = s.handle := Option.some.inj hc
    subst hx
    cases hread : message.read <;> simp [answerOwn, reportsOf, hread]
  | _ =>
    rw [show reportsOf s.handle _ = [] from rfl, List.append_nil]
    unfold answerOwn
    dsimp only
    split
    · exact s.reports_answerUnit _ _
    · rfl

theorem reportsOf_of_foreign {x : UnitHandle} {c : Callback} (reply : CallbackReply)
    (hc : c.handle? ≠ some x) : reportsOf x [(c, reply)] = [] := by
  cases c with
  | report y message =>
    have hy : y ≠ x := fun heq => hc (congrArg some heq)
    simp [reportsOf, hy]
  | _ => rfl

theorem reports_answer (s : Session) (flags : Flags) (c : Callback) (reply : CallbackReply) :
    (s.answer flags c).2.1.reports = s.reports ++ reportsOf s.handle [(c, reply)] := by
  have hplain : (s.answerPlain c).2.reports = s.reports ++ reportsOf s.handle [(c, reply)] := by
    by_cases hown : c.handle? = some s.handle
    · cases c with
      | log => exact (List.append_nil _).symm
      | unitInfo | param | register | report =>
        simp only [answerPlain, Callback.withoutSession?, if_pos hown]
        exact s.reports_answerOwn _ reply hown
      | _ => cases hown
    · rw [reportsOf_of_foreign reply hown, List.append_nil]
      unfold answerPlain
      split
      · rfl
      · split
        · rfl
        · rw [if_neg hown]
  cases c with
  | flag => exact (List.append_nil _).symm
  | setFlag name value =>
    unfold answer
    dsimp only
    split
    · split <;> exact (List.append_nil _).symm
    · exact (List.append_nil _).symm
  | _ => exact hplain

theorem Answers.reports_eq (h : s.Answers log s') :
    s'.reports = s.reports ++ reportsOf s.handle log := by
  induction h with
  | nil => exact (List.append_nil _).symm
  | @cons s s' c log flags hrest ih =>
    have hhandle : ((s.answer flags c).2.1.noted c (s.answer flags c).1).handle = s.handle :=
      (s.grows_answer flags c).handle
    have hreports : ((s.answer flags c).2.1.noted c (s.answer flags c).1).reports =
        s.reports ++ reportsOf s.handle [(c, (s.answer flags c).1)] := s.reports_answer flags c _
    have hcons : reportsOf s.handle ((c, (s.answer flags c).1) :: log) =
        reportsOf s.handle [(c, (s.answer flags c).1)] ++ reportsOf s.handle log :=
      List.filterMap_append (l := [(c, (s.answer flags c).1)])
    rw [ih, hhandle, hreports, hcons, List.append_assoc]

/-- A failing hook is told by all that it has reported, or else by its status. -/
theorem message_fault (s : Session) (point : EntryPoint) (status : Status) :
    (s.fault point status).message =
      if s.reports = [] then s!"{point.symbol} returned status {status.toInt}"
      else "; ".intercalate s.reports := by
  unfold fault
  cases s.reports <;> rfl

end Session

/-! ### Code that only asks -/

def Code.OnlyCalls {α : Type} : Behaviour α → Prop
  | .done _ => True
  | .ask (.call _) next => ∀ reply, OnlyCalls (next (.called reply))
  | .ask _ _ => False

/-- The way that code takes: what it asks for, how it is answered, and what it comes to. -/
inductive Code.Asks {α : Type} : Behaviour α → List (Callback × CallbackReply) → α → Prop where
  | done (a : α) : Asks (.done a) [] a
  | ask {c : Callback} {reply : CallbackReply} {next : ActionReply → Behaviour α}
      {log : List (Callback × CallbackReply)} {a : α} : Asks (next (.called reply)) log a →
      Asks (.ask (.call c) next) ((c, reply) :: log) a

/-- The innermost session notes all that such code asks for, and nothing else. -/
theorem runCode_asks {α : Type} {n : Nested} {m : Machine} {s : Session} {outer : List Session}
    (code : Behaviour α) (hs : m.host.sessions = s :: outer) (hc : code.OnlyCalls) :
    ∃ s' log, ((n.runCode code).after m).host.sessions = s' :: outer ∧ s.Answers log s' ∧
      code.Asks log ((n.runCode code).result m) := by
  induction code generalizing m s with
  | done a => exact ⟨s, [], hs, .nil s, .done a⟩
  | ask request next ih =>
    cases request with
    | call c =>
      obtain ⟨flags, hresult, hsessions⟩ := Conduct.answer_call (n := n) hs c
      have hrun : n.runCode (.ask (.call c) next) =
          n.answer (.call c) >>= fun reply => n.runCode (next reply) := rfl
      obtain ⟨s', log, hafter, hanswers, hasks⟩ := ih _ hsessions (hc (s.answer flags c).1)
      rw [hrun, Work.result_bind, Work.after_bind, hresult]
      exact ⟨s', _, hafter, .cons flags hanswers, .ask hasks⟩
    | _ => exact hc.elim

theorem runCode_bind {α β : Type} (n : Nested) (code : Behaviour α) (f : α → Behaviour β) :
    n.runCode (code >>= f) = n.runCode code >>= fun a => n.runCode (f a) := by
  induction code with
  | done a => rfl
  | ask request next ih =>
    have hrun {γ : Type} (next : ActionReply → Behaviour γ) : n.runCode (.ask request next) =
        n.answer request >>= fun reply => n.runCode (next reply) := rfl
    have hbind : (Code.ask request next >>= f : Behaviour β) =
        .ask request fun reply => next reply >>= f := rfl
    rw [hbind, hrun, hrun, bind_assoc]
    exact congrArg _ (funext ih)

/-! ### Hook calls -/

namespace Startup

variable {n : Nested} {G : List UnitHandle} {m : Machine} {r : Registry} {u : DeclaredUnit}
  {es : List Entry} {x : UnitHandle}

def HookEnd.reports (e : HookEnd) : List String := reportsOf e.session.handle e.session.history

theorem exists_answers_callHook (hn : n.Lawful) (ho : m.Orderly G) (point : EntryPoint)
    (hook : UnitHandle → Behaviour Status) :
    let e := (callHook n point hook r x).result m
    Session.Answers { handle := x, vmVersion := m.host.settings.vmVersion, registry := r }
      e.session.history e.session ∧ e.session.handle = x := by
  intro e
  have hsession := session_callHook (x := x) hn ho point hook r
  obtain ⟨log, hanswers⟩ := hsession.answers
  have hhistory : e.session.history = [] ++ log := hanswers.history_eq
  rw [hhistory, List.nil_append]
  exact ⟨hanswers, hsession.handle⟩

theorem callHook_judged (hn : n.Lawful) (ho : m.Orderly G) (point : EntryPoint)
    (hook : UnitHandle → Behaviour Status) (hv : ∃ v, r.unit? u.handle = some v ∧ v.name = u.name)
    (hr : r.Collects es) : Judged u es ((callHook n point hook r u.handle).result m).calls := by
  obtain ⟨hanswers, hhandle⟩ := exists_answers_callHook (r := r) (x := u.handle) hn ho point hook
  rw [HookEnd.calls, hhandle]
  exact hanswers.judged hv rfl hr

theorem callHook_reports (hn : n.Lawful) (ho : m.Orderly G) (point : EntryPoint)
    (hook : UnitHandle → Behaviour Status) :
    let e := (callHook n point hook r x).result m
    e.session.reports = e.reports := by
  intro e
  obtain ⟨hanswers, hhandle⟩ := exists_answers_callHook (r := r) (x := x) hn ho point hook
  have hreports : e.session.reports = [] ++ reportsOf x e.session.history := hanswers.reports_eq
  have hsame : e.session.handle = x := hhandle
  rw [HookEnd.reports, hsame, hreports, List.nil_append]

theorem callHook_asks (n : Nested) (m : Machine) (point : EntryPoint)
    {hook : UnitHandle → Behaviour Status} (r : Registry) (hc : (hook x).OnlyCalls) :
    let e := (callHook n point hook r x).result m
    (hook x).Asks e.session.history e.status := by
  intro e
  have hs : (begun point r x m).host.sessions =
    { handle := x, vmVersion := m.host.settings.vmVersion, registry := r } :: m.host.sessions := rfl
  obtain ⟨s', log, hafter, hanswers, hasks⟩ := runCode_asks (n := n) (hook x) hs hc
  have hsession : e.session = s' := by
    show ((n.runCode (hook x)).after (begun point r x m)).host.sessions.headD _ = s'
    rw [hafter]
    rfl
  have hhistory : s'.history = [] ++ log := hanswers.history_eq
  rw [hsession, hhistory]
  exact hasks

/-- What a hook of the kit still does when its body has failed. -/
theorem runCode_kit (n : Nested) (body : Kit.Env → Behaviour (Except String Unit))
    {message : String}
    (hbody : (n.runCode (body ⟨x⟩)).result m = .error message) :
    let report := n.answer (.call (.report x (.ofString (Kit.sanitize message))))
    let m₁ := (n.runCode (body ⟨x⟩)).after m
    (n.runCode (Kit.hook (some abiVersion) body x)).result m = Status.error ∧
      (n.runCode (Kit.hook (some abiVersion) body x)).after m = report.after m₁ := by
  intro report m₁
  obtain ⟨ending, hhook, hending⟩ : ∃ ending,
      Kit.hook (some abiVersion) body x = body ⟨x⟩ >>= ending ∧
      n.runCode (ending (.error message)) = report >>= fun _ => pure Status.error := by
    refine ⟨_, rfl, ?_⟩
    apply congrArg (report >>= ·)
    funext reply
    cases reply <;> rfl
  rw [hhook, runCode_bind, Work.result_bind, Work.after_bind, hbody, hending]
  exact ⟨rfl, rfl⟩

theorem callHook_kit (hn : n.Lawful) (ho : m.Orderly G) (point : EntryPoint)
    (body : Kit.Env → Behaviour (Except String Unit)) {message : String}
    (hbody : (n.runCode (body ⟨x⟩)).result (begun point r x m) = .error message) :
    let e := (callHook n point (Kit.hook (some abiVersion) body) r x).result m
    e.status = Status.error ∧ e.session.reports.getLast? = some (Kit.sanitize message) := by
  intro e
  let s : Session := { handle := x, vmVersion := m.host.settings.vmVersion, registry := r }
  let m₁ := (n.runCode (body ⟨x⟩)).after (begun point r x m)
  have hsessions : List.Forall₂ Session.Extends (s :: m.host.sessions) m₁.host.sessions :=
    (hn.runCode (X := []) (body ⟨x⟩) (orderly_begun (G := G) ho)).around.sessions
  obtain ⟨s₁, outer, hext, -, hs₁⟩ := List.forall₂_cons_left_iff.1 hsessions
  let report : Callback := .report x (.ofString (Kit.sanitize message))
  obtain ⟨flags, -, hafter⟩ := Conduct.answer_call (n := n) hs₁ report
  obtain ⟨hstatus, hended⟩ := runCode_kit n body hbody
  have hsession : e.session =
      (s₁.answer flags report).2.1.noted report (s₁.answer flags report).1 := by
    show ((n.runCode (Kit.hook (some abiVersion) body x)).after
      (begun point r x m)).host.sessions.headD s = _
    rw [hended, hafter]
    rfl
  have hread : reportsOf s₁.handle [(report, (s₁.answer flags report).1)] =
      [Kit.sanitize message] := by
    have htext := Text.read_ofString (Kit.nul_not_mem_sanitize message)
    have hhandle : s₁.handle = x := hext.handle
    simp [reportsOf, report, hhandle, htext]
  refine ⟨hstatus, ?_⟩
  rw [hsession, Session.noted, s₁.reports_answer flags report (s₁.answer flags report).1, hread,
    List.getLast?_concat]

end Startup

end AccelHost
