import AccelHost.Proofs.Amid

/-!
Units are isolated from one another. A request reaches only the session that is innermost at the
time, and gets no further without the handle of that session's unit; where no session is open,
nothing is answered and nothing changes. A hook has a session of its own on top of those that were
open before, and leaves these as they were.
-/
namespace AccelHost

open Holding

namespace CallbackReply

def status? : CallbackReply → Option Status
  | status s | filled s _ => some s
  | number _ | nothing => none

def buffers : CallbackReply → List Text.Buffer
  | filled _ bs => bs
  | _ => []

end CallbackReply

namespace Callback

/-- Whether a request means something only while a hook runs. -/
def isScoped : Callback → Bool
  | vmVersion _ | unitInfo .. | param .. | flag .. | setFlag .. | register .. | report .. => true
  | accelVersion | cpuFeature _ | log .. => false

def subject? : Callback → Option UnitHandle
  | unitInfo h .. | param h .. | register h _ | report h _ => some h
  | _ => none

def buffers : Callback → List Text.Buffer
  | vmVersion b | param _ _ b | flag _ b => [b]
  | unitInfo _ f v p => [f, v, p]
  | _ => []

/-- An answer that tells of an error and leaves the buffers as they are. Reports get no status. -/
structure Denied (c : Callback) (reply : CallbackReply) : Prop where
  status : (∀ h message, c ≠ report h message) → reply.status? = some Status.error
  buffers : reply.buffers = c.buffers

variable {c : Callback}

theorem withoutSession?_of_isScoped (hc : c.isScoped) : c.withoutSession? = none := by
  cases c <;> first | rfl | cases hc

theorem logged?_of_isScoped (hc : c.isScoped) : c.logged? = none := by
  cases c <;> first | rfl | cases hc

theorem denied_of_isScoped (hc : c.isScoped) : c.Denied c.refused := by
  cases c with
  | accelVersion | cpuFeature | log => cases hc
  | report h message => exact ⟨fun hr => absurd rfl (hr h message), rfl⟩
  | _ => exact ⟨fun _ => rfl, rfl⟩

theorem isScoped_of_subject? {h : UnitHandle} (hc : c.subject? = some h) : c.isScoped := by
  cases c <;> first | rfl | cases hc

end Callback

/-- A request about a unit gets no further than the handle in the session of another. -/
theorem Session.answer_of_subject {s : Session} {c : Callback} {h : UnitHandle} {flags : Flags}
    (hc : c.subject? = some h) (hne : h ≠ s.handle) : s.answer flags c = (c.refused, s, flags) := by
  refine s.answer_of_foreign (h := h) ?_ ?_ hne
  · cases c <;> simp_all [Callback.subject?, Callback.handle?]
  · rintro l m rfl
    cases hc

/-! ### But for what is kept of requests -/

def Host.viewed (g : Session → Session) (h : Host) : Host := { h with sessions := h.sessions.map g }

def Machine.viewed (g : Session → Session) (m : Machine) : Machine :=
  { m with host := m.host.viewed g, waiting := m.waiting.map (Host.viewed g) }

def Session.unnoted (s : Session) : Session := { s with history := [] }

def Host.unnoted (h : Host) : Host := { h with sessions := h.sessions.map Session.unnoted }

def Machine.unnoted (m : Machine) : Machine :=
  { m with host := m.host.unnoted, waiting := m.waiting.map Host.unnoted }

/-! ### Which session answers -/

/-- The innermost session among some hosts, with the flags of its host. -/
def innermost? : List Host → Option (Session × Flags)
  | [] => none
  | h :: rest =>
    match h.sessions with
    | s :: _ => some (s, h.flags)
    | [] => innermost? rest

/-- The session that requests are for, and the flags that they are about. -/
def Machine.scope? (m : Machine) : Option (Session × Flags) := innermost? (m.host :: m.waiting)

/-- The sessions that are open, host by host, the innermost first. -/
def Machine.stack (m : Machine) : List (List Session) :=
  (m.host :: m.waiting).map (·.sessions)

section

variable {c : Callback} {hosts : List Host} {s : Session} {flags : Flags} {m : Machine}

theorem answerInnermost_of_none (hn : innermost? hosts = none) :
    answerInnermost c hosts = none := by
  induction hosts with
  | nil => rfl
  | cons h rest ih =>
    cases hh : h.sessions with
    | nil =>
      simp only [innermost?, hh] at hn
      simp only [answerInnermost, hh, ih hn, Option.map_none]
    | cons s outer =>
      simp only [innermost?, hh] at hn
      cases hn

theorem answerInnermost_of_some (hs : innermost? hosts = some (s, flags)) :
    ∃ hosts', answerInnermost c hosts = some ((s.answer flags c).1, hosts') ∧
      innermost? hosts' =
        some ((s.answer flags c).2.1.noted c (s.answer flags c).1, (s.answer flags c).2.2) := by
  induction hosts with
  | nil => cases hs
  | cons h rest ih =>
    unfold innermost? at hs
    unfold answerInnermost
    cases hh : h.sessions with
    | nil =>
      simp only [hh] at hs ⊢
      obtain ⟨hosts', ha, hin⟩ := ih hs
      exact ⟨h :: hosts', by rw [ha]; rfl, by simpa [innermost?, hh] using hin⟩
    | cons s' outer =>
      simp only [hh, Option.some.injEq, Prod.mk.injEq] at hs ⊢
      obtain ⟨rfl, rfl⟩ := hs
      exact ⟨_, ⟨rfl, rfl⟩, rfl⟩

/-- What makes no difference to the session that answers makes none to the hosts. -/
theorem map_viewed_of_answerInnermost {g : Session → Session} {reply : CallbackReply}
    {hosts' : List Host} (hs : innermost? hosts = some (s, flags))
    (ha : answerInnermost c hosts = some (reply, hosts'))
    (hg : g ((s.answer flags c).2.1.noted c (s.answer flags c).1) = g s)
    (hflags : (s.answer flags c).2.2 = flags) :
    hosts'.map (Host.viewed g) = hosts.map (Host.viewed g) := by
  induction hosts generalizing reply hosts' with
  | nil => cases hs
  | cons h rest ih =>
    unfold innermost? at hs
    unfold answerInnermost at ha
    cases hh : h.sessions with
    | nil =>
      simp only [hh] at hs ha
      obtain ⟨⟨r, rest'⟩, hr, he⟩ := Option.map_eq_some_iff.1 ha
      cases he
      rw [List.map_cons, ih hs hr, List.map_cons]
    | cons s' outer =>
      simp only [hh, Option.some.injEq, Prod.mk.injEq] at hs ha
      obtain ⟨rfl, rfl⟩ := hs
      obtain ⟨rfl, rfl⟩ := ha
      rw [hflags, List.map_cons, List.map_cons]
      refine congrArg (· :: rest.map (Host.viewed g)) ?_
      simp only [Host.viewed, Host.setFlags, hh, List.map_cons, hg]
      rfl

/-- A request writes a line of the log at most, before it is answered. -/
theorem callback_eq (c : Callback) (m : Machine) :
    ∃ j, (Work.callback c).result m = (Work.answered c).result { m with journal := j } ∧
      (Work.callback c).after m = (Work.answered c).after { m with journal := j } ∧
      (c.isScoped → j = m.journal) := by
  cases hl : c.logged? with
  | none =>
    have hc : Work.callback c = Work.answered c := by simp [Work.callback, hl]
    exact ⟨m.journal, by rw [hc], by rw [hc], fun _ => rfl⟩
  | some e =>
    refine ⟨m.journal ++ [.log e.1 e.2], ?_, ?_, fun hc => ?_⟩
    · simp only [Work.callback, hl]
      rfl
    · simp only [Work.callback, hl]
      rfl
    · rw [Callback.logged?_of_isScoped hc] at hl
      cases hl

theorem answered_of_none (hn : m.scope? = none) :
    (Work.answered c).result m = c.withoutSession?.getD c.refused ∧
      (Work.answered c).after m = m := by
  have ha := answerInnermost_of_none (c := c) hn
  constructor
  · simp only [Work.answered, Work.result_bind, Work.result_get, Work.after_get, ha,
      Work.result_pure]
  · simp only [Work.answered, Work.after_bind, Work.result_get, Work.after_get, ha,
      Work.after_pure]

theorem answered_of_some (hs : m.scope? = some (s, flags)) :
    (Work.answered c).result m = (s.answer flags c).1 ∧
      ((Work.answered c).after m).scope? =
        some ((s.answer flags c).2.1.noted c (s.answer flags c).1, (s.answer flags c).2.2) ∧
      ∀ g : Session → Session, g ((s.answer flags c).2.1.noted c (s.answer flags c).1) = g s →
        (s.answer flags c).2.2 = flags →
        ((Work.answered c).after m).viewed g = m.viewed g := by
  obtain ⟨hosts', ha, hin⟩ := answerInnermost_of_some (c := c) hs
  cases waited_of_answerInnermost ha with
  | @cons _ host _ waiting _ _ =>
    have hafter : (Work.answered c).after m = { m with host, waiting } := by
      simp only [Work.answered, Work.after_bind, Work.result_get, Work.after_get, ha]
      rfl
    refine ⟨?_, by rw [hafter]; exact hin, fun g hg hflags => ?_⟩
    · simp only [Work.answered, Work.result_bind, Work.result_get, Work.after_get, ha]
      rfl
    · obtain ⟨hh, hw⟩ := List.cons.inj (map_viewed_of_answerInnermost hs ha hg hflags)
      rw [hafter, Machine.viewed, hh, hw, Machine.viewed]

end

/-! ### Sessions on top of others -/

/-- Of some stacks of sessions, at most the innermost session has gone on. -/
inductive Touches : List (List Session) → List (List Session) → Prop where
  | same (S : List (List Session)) : Touches S S
  | here {s s' : Session} {outer : List Session} {rest : List (List Session)} :
      s.Extends s' → Touches ((s :: outer) :: rest) ((s' :: outer) :: rest)
  | under {rest rest' : List (List Session)} : Touches rest rest' →
      Touches ([] :: rest) ([] :: rest')

namespace Touches

variable {S S' S'' : List (List Session)}

theorem trans (h : Touches S S') (h' : Touches S' S'') : Touches S S'' := by
  induction h generalizing S'' with
  | same => exact h'
  | here hs =>
    cases h' with
    | same => exact .here hs
    | here hs' => exact .here (hs.trans hs')
  | under h ih =>
    cases h' with
    | same => exact .under h
    | under h' => exact .under (ih h')

theorem length_eq (h : Touches S S') : S'.length = S.length := by
  induction h with
  | same | here => rfl
  | under _ ih => rw [List.length_cons, ih, List.length_cons]

theorem of_cons {s : Session} {outer : List Session} {rest : List (List Session)}
    (h : Touches ((s :: outer) :: rest) S) :
    ∃ s', s.Extends s' ∧ S = (s' :: outer) :: rest := by
  cases h with
  | same => exact ⟨s, .refl s, rfl⟩
  | here hs => exact ⟨_, hs, rfl⟩

theorem of_nil {rest : List (List Session)} (h : Touches ([] :: rest) S) :
    ∃ rest', Touches rest rest' ∧ S = [] :: rest' := by
  cases h with
  | same => exact ⟨rest, .same rest, rfl⟩
  | under h => exact ⟨_, h, rfl⟩

theorem of_answerInnermost {c : Callback} {hosts hosts' : List Host} {reply : CallbackReply}
    (h : answerInnermost c hosts = some (reply, hosts')) :
    Touches (hosts.map (·.sessions)) (hosts'.map (·.sessions)) := by
  induction hosts generalizing hosts' reply with
  | nil => cases h
  | cons host rest ih =>
    unfold answerInnermost at h
    split at h
    · rename_i s outer hs
      cases h
      simp only [List.map_cons, hs]
      exact .here (s.extends_noted _ c)
    · rename_i hs
      obtain ⟨⟨r, rest'⟩, hr, he⟩ := Option.map_eq_some_iff.1 h
      cases he
      simp only [List.map_cons, hs]
      exact .under (ih hr)

end Touches

/-- Whatever is done, requests have reached no session but the innermost. -/
theorem Moves.touches {X Y : List Holding} {m m' : Machine} (h : Moves X m Y m') :
    Touches m.stack m'.stack := by
  induction h with
  | trans _ _ ih₁ ih₂ => exact ih₁.trans ih₂
  | @quiet X m h j stuck hq hs =>
    rw [hq.rest]
    exact .same _
  | callback hc => exact .of_answerInnermost hc
  | @hook X Y m m' s _ ih =>
    -- The session of the hook is on top of all others while it runs, and is gone then.
    obtain ⟨s', _, hstack⟩ := Touches.of_cons ih
    obtain ⟨hh, hw⟩ := List.cons.inj hstack
    have hpop : m'.pop.stack = m.stack := by
      simp only [Machine.stack, Machine.pop, Machine.withHost, List.map_cons, hh, hw,
        List.tail_cons]
      rfl
    rw [hpop]
    exact .same _
  | @nested X m m' p _ ih =>
    obtain ⟨rest, ht, hstack⟩ := Touches.of_nil ih
    obtain ⟨_, hw⟩ := List.cons.inj hstack
    have hleave : m'.leave.stack = rest := by
      unfold Machine.leave
      cases hm : m'.waiting with
      | nil =>
        have hlen := ht.length_eq
        rw [← hw, hm] at hlen
        cases hlen
      | cons host waiting =>
        rw [hm] at hw
        exact hw
    rw [hleave]
    exact ht
  | @cache X m =>
    obtain ⟨r, b, he⟩ := m.host.modifyReplacements_eq _
    rw [Machine.withHost, he]
    exact .same _
  | _ => exact .same _

namespace Startup

def begun (point : EntryPoint) (r : Registry) (x : UnitHandle) (m : Machine) : Machine :=
  Machine.push { m with trace := m.trace ++ [.entered point x] }
    { handle := x, vmVersion := m.host.settings.vmVersion, registry := r }

variable {n : Nested} {G : List UnitHandle} {m m' : Machine} {x : UnitHandle} {r : Registry}
  {point : EntryPoint} {hook : UnitHandle → Behaviour Status}

theorem orderly_begun (ho : m.Orderly G) : (begun point r x m).Orderly G :=
  ho.of_same rfl { Host.Same.refl m.host with } rfl

/-- While the code of a hook runs, its session is innermost, on top of those that were open. -/
theorem stack_of_reaches (hn : n.Lawful) (ho : m.Orderly G) {rest : Behaviour Status}
    (hr : n.Reaches (hook x) (begun point r x m) rest m') :
    ∃ s, m'.stack = (s :: m.host.sessions) :: m.waiting.map (·.sessions) ∧ s.handle = x ∧
      m'.scope? = some (s, m'.host.flags) := by
  have hm : Moves [] (begun point r x m) [] m' := hr.moves hn (orderly_begun ho)
  obtain ⟨s, hext, hstack⟩ := Touches.of_cons hm.touches
  refine ⟨s, hstack, hext.handle, ?_⟩
  have hs : m'.host.sessions = s :: m.host.sessions := (List.cons.inj hstack).1
  simp only [Machine.scope?, innermost?, hs]

theorem stack_callHook (hn : n.Lawful) (ho : m.Orderly G) :
    ((callHook n point hook r x).after m).stack = m.stack := by
  let m₁ := (n.runCode (hook x)).after (begun point r x m)
  have hm : Moves [] (begun point r x m) [] m₁ := hn.runCode (hook x) (orderly_begun (G := G) ho)
  obtain ⟨s, _, hstack⟩ := Touches.of_cons hm.touches
  have hh : m₁.host.sessions = s :: m.host.sessions := (List.cons.inj hstack).1
  have hw : m₁.waiting.map (·.sessions) = m.waiting.map (·.sessions) := (List.cons.inj hstack).2
  have hafter : ((callHook n point hook r x).after m).stack =
      m₁.host.sessions.tail :: m₁.waiting.map (·.sessions) := rfl
  rw [hafter, hh, hw]
  rfl

end Startup

theorem innermost?_map_fst {hosts hosts' : List Host}
    (h : hosts'.map (·.sessions) = hosts.map (·.sessions)) :
    (innermost? hosts').map (·.1) = (innermost? hosts).map (·.1) := by
  induction hosts generalizing hosts' with
  | nil =>
    rw [List.map_nil, List.map_eq_nil_iff] at h
    rw [h]
  | cons host rest ih =>
    obtain ⟨host', rest', rfl, hh, hrest⟩ := List.map_eq_cons_iff.1 h
    cases hs : host.sessions with
    | nil => simpa [innermost?, hh, hs] using ih hrest
    | cons s outer => simp [innermost?, hh, hs]

/-- Units are isolated from one another. While no session is open, requests that need one are denied
and change nothing. A request with the handle of another unit than that of the innermost session is
denied and changes nothing but the record of requests, whatever else it is given. While the code of
a hook runs, the innermost session is that of its unit; and when it is over, the sessions are those
that were open before, so that requests are for the session around it again. A hook may be called at
any machine in order, as every machine is that a program comes to. -/
theorem units_isolated (d : Nat) :
    (∀ (m : Machine) (c : Callback), m.scope? = none → c.isScoped →
      c.Denied ((Work.callback c).result m) ∧ (Work.callback c).after m = m) ∧
    (∀ (m : Machine) (s : Session) (flags : Flags) (c : Callback) (h : UnitHandle),
      m.scope? = some (s, flags) → c.subject? = some h → h ≠ s.handle →
      c.Denied ((Work.callback c).result m) ∧ ((Work.callback c).after m).unnoted = m.unnoted) ∧
    ((∀ (program : Program) (ops : List Op),
        ((ops.mapM (Op.answer (.ofDepth d))).after (.ofProgram program)).Orderly []) ∧
      ∀ G m program, Machine.Orderly G m → (m.enter program).Orderly G) ∧
    ∀ (G : List UnitHandle) (m : Machine), m.Orderly G →
      ∀ (point : EntryPoint) (hook : UnitHandle → Behaviour Status) (r : Registry)
        (x : UnitHandle),
      (∀ rest m', (Nested.ofDepth d).Reaches (hook x) (Startup.begun point r x m) rest m' →
        m'.Orderly G ∧ ∃ s, m'.scope? = some (s, m'.host.flags) ∧ s.handle = x ∧
          m'.stack = (s :: m.host.sessions) :: m.waiting.map (·.sessions)) ∧
      let m' := (Startup.callHook (.ofDepth d) point hook r x).after m
      m'.stack = m.stack ∧
      (m.scope? = none → m'.scope? = none) ∧
      ∀ s flags, m.scope? = some (s, flags) → ∃ flags', m'.scope? = some (s, flags') ∧
        ∀ c, let (reply, s', after) := s.answer flags' c
          (Work.callback c).result m' = reply ∧
          ((Work.callback c).after m').scope? = some (s'.noted c reply, after) := by
  have hn := Nested.lawful_ofDepth d
  refine ⟨fun m c hnone hc => ?_, fun m s flags c h hs hc hne => ?_,
    ⟨fun program ops => Op.orderly_answers d ops (Machine.orderly_ofProgram program),
      fun G m program ho => ho.enter program⟩, fun G m ho point hook r x => ⟨?_, ?_⟩⟩
  · obtain ⟨j, hresult, hafter, hj⟩ := callback_eq c m
    cases hj hc
    obtain ⟨hreply, hsame⟩ := answered_of_none (c := c) hnone
    rw [hresult, hafter, hreply, Callback.withoutSession?_of_isScoped hc]
    exact ⟨Callback.denied_of_isScoped hc, hsame⟩
  · have hscoped := Callback.isScoped_of_subject? hc
    obtain ⟨j, hresult, hafter, hj⟩ := callback_eq c m
    cases hj hscoped
    obtain ⟨hreply, -, hsame⟩ := answered_of_some (c := c) hs
    have hanswer : s.answer flags c = (c.refused, s, flags) := Session.answer_of_subject hc hne
    rw [hresult, hafter, hreply, hanswer]
    exact ⟨Callback.denied_of_isScoped hscoped,
      hsame Session.unnoted (by rw [hanswer]; rfl) (by rw [hanswer])⟩
  · intro rest m' hr
    have hm : Moves [] _ [] m' := hr.moves hn (Startup.orderly_begun ho)
    obtain ⟨s, hstack, hx, hscope⟩ := Startup.stack_of_reaches hn ho hr
    exact ⟨(hm.orderly (G := G) (Startup.orderly_begun ho)).1, s, hscope, hx, hstack⟩
  · intro m'
    have hstack : m'.stack = m.stack := Startup.stack_callHook hn ho
    have hscope : m'.scope?.map (·.1) = m.scope?.map (·.1) := innermost?_map_fst hstack
    refine ⟨hstack, fun hnone => ?_, fun s flags hs => ?_⟩
    · rw [hnone] at hscope
      simpa using hscope
    · rw [hs] at hscope
      obtain ⟨⟨s', flags'⟩, hs', rfl⟩ := Option.map_eq_some_iff.1 hscope
      refine ⟨flags', hs', fun c => ?_⟩
      obtain ⟨j, hresult, hafter, -⟩ := callback_eq c m'
      have hj : ({ m' with journal := j } : Machine).scope? = some (s', flags') := hs'
      obtain ⟨hreply, hscope', -⟩ := answered_of_some (c := c) hj
      rw [hresult, hafter]
      exact ⟨hreply, hscope'⟩

end AccelHost
