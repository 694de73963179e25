import AccelHost.Proofs.HookFailures
import AccelHost.Proofs.Isolation

/-!
What a request that fails leaves behind. Registries and flags are as before, and so is every buffer
that the request offers, except where unit information is asked for: it is written buffer by buffer,
and those before the first without room have their texts by the time that this is found.
-/
namespace AccelHost

open Text (Buffer)

/-! ### Buffers -/

theorem Text.Buffer.writeOptional_eq_none_iff {text : String} {b : Buffer} :
    b.writeOptional text = none ↔ b = .room [] := by
  rcases b with n | _ | ⟨x, r⟩ <;> simp [Buffer.writeOptional, Buffer.write]

/-- Some texts are written into buffers one after another, and a buffer is changed by it although
one behind it has no room. -/
inductive Spoiled : List (String × Buffer) → Prop where
  | here {text : String} {b b' : Buffer} {rest : List (String × Buffer)} :
      b.writeOptional text = some b' → b' ≠ b → (∃ p ∈ rest, p.2 = .room []) →
      Spoiled ((text, b) :: rest)
  | later {text : String} {b b' : Buffer} {rest : List (String × Buffer)} :
      b.writeOptional text = some b' → Spoiled rest → Spoiled ((text, b) :: rest)

variable {pairs : List (String × Buffer)}

theorem fillEach_eq_false_iff : (fillEach pairs).1 = false ↔ ∃ p ∈ pairs, p.2 = .room [] := by
  induction pairs with
  | nil => simp [fillEach]
  | cons p rest ih =>
    obtain ⟨text, b⟩ := p
    cases hb : b.writeOptional text with
    | none =>
      have hempty := Buffer.writeOptional_eq_none_iff.1 hb
      simp [fillEach, hb, ← hempty]
    | some b' =>
      have hroom : b ≠ .room [] := fun h => by
        rw [Buffer.writeOptional_eq_none_iff.2 h] at hb
        cases hb
      simp [fillEach, hb, ih, hroom]

theorem fillEach_snd_eq_iff (hfail : (fillEach pairs).1 = false) :
    (fillEach pairs).2 = pairs.map (·.2) ↔ ¬ Spoiled pairs := by
  induction pairs with
  | nil => cases hfail
  | cons p rest ih =>
    obtain ⟨text, b⟩ := p
    cases hb : b.writeOptional text with
    | none =>
      have hnot : ¬ Spoiled ((text, b) :: rest) := by
        rintro (⟨hwrite, -, -⟩ | ⟨hwrite, -⟩) <;> simp [hb] at hwrite
      simp [fillEach, hb, hnot]
    | some b' =>
      simp only [fillEach, hb] at hfail
      have hspoiled : Spoiled ((text, b) :: rest) ↔ b' ≠ b ∨ Spoiled rest := by
        constructor
        · rintro (⟨hwrite, hne, -⟩ | ⟨-, hlater⟩)
          · rw [hb] at hwrite
            cases hwrite
            exact .inl hne
          · exact .inr hlater
        · rintro (hne | hlater)
          · exact .here hb hne (fillEach_eq_false_iff.1 hfail)
          · exact .later hb hlater
      rw [hspoiled, not_or, not_not, ← ih hfail]
      simp [fillEach, hb]

theorem statusOf_eq_error_iff {done : Bool} :
    (if done then Status.ok else Status.error) = Status.error ↔ done = false := by
  cases done <;> decide

/-- A single buffer is looked at before it is written. -/
theorem buffers_fillOne {text : Option String} {b : Buffer}
    (hfail : (fillOne text b).status? = some Status.error) : (fillOne text b).buffers = [b] := by
  unfold fillOne at hfail ⊢
  split
  · rename_i hwrite
    rw [hwrite] at hfail
    cases hfail
  · rfl

/-! ### Sessions -/

/-- A session but for what it notes down of requests: their record, and why the first registration
was rejected. -/
def Session.unmarked (s : Session) : Session := { s with failure := none, history := [] }

theorem Callback.handle?_of_subject? {c : Callback} {x : UnitHandle} (hc : c.subject? = some x) :
    c.handle? = some x := by
  cases c <;> first | exact hc | cases hc

/-- What a unit is told of itself, each text with the buffer for it. -/
def UnitOption.info (o : UnitOption) (feature version params : Buffer) : List (String × Buffer) :=
  [(o.feature, feature), (o.version.getD "", version), (o.rawParams.getD "", params)]

namespace Session

@[simp] theorem unmarked_noted (s : Session) (c : Callback) (reply : CallbackReply) :
    (s.noted c reply).unmarked = s.unmarked := rfl

/-- Requests that fail and spoil a buffer. -/
inductive Spoils (s : Session) : Callback → Prop where
  | unitInfo {u : DeclaredUnit} {feature version params : Buffer} : s.unit? = some u →
      Spoiled (u.option.info feature version params) →
      Spoils s (.unitInfo s.handle feature version params)

/-- What a request leaves of a session, of flags and of its own buffers. -/
structure Leaves (s : Session) (flags : Flags) (c : Callback)
    (answer : CallbackReply × Session × Flags) : Prop where
  session : answer.2.1.unmarked = s.unmarked
  flags : answer.2.2 = flags
  buffers : answer.1.buffers = c.buffers ↔ ¬ s.Spoils c

variable {s : Session} {flags : Flags} {c : Callback}

theorem Spoils.subject? (hs : s.Spoils c) : c.subject? = some s.handle ∧ s.unit?.isSome := by
  obtain ⟨hu, -⟩ := hs
  exact ⟨rfl, by simp [hu]⟩

/-- Only unit information has more than one buffer. -/
theorem not_spoils (hc : ∀ x feature version params, c ≠ .unitInfo x feature version params) :
    ¬ s.Spoils c := by
  intro hspoils
  cases hspoils
  exact hc _ _ _ _ rfl

theorem spoils_unitInfo_iff {u : DeclaredUnit} {feature version params : Buffer}
    (hu : s.unit? = some u) : s.Spoils (.unitInfo s.handle feature version params) ↔
      Spoiled (u.option.info feature version params) := by
  refine ⟨?_, .unitInfo hu⟩
  rintro ⟨hu', hspoiled⟩
  obtain rfl := Option.some.inj (hu.symm.trans hu')
  exact hspoiled

theorem Leaves.of_buffers {reply : CallbackReply} (hbuffers : reply.buffers = c.buffers)
    (hc : ¬ s.Spoils c) : s.Leaves flags c (reply, s, flags) :=
  ⟨rfl, rfl, iff_of_true hbuffers hc⟩

theorem leaves_refused (hc : c.isScoped) (hs : ¬ s.Spoils c) :
    s.Leaves flags c (c.refused, s, flags) :=
  .of_buffers (Callback.denied_of_isScoped hc).buffers hs

theorem unmarked_register {u : DeclaredUnit} {entry : Option RawEntry}
    (hfail : (s.register u entry).1.status? = some Status.error) :
    (s.register u entry).2.unmarked = s.unmarked ∧ (s.register u entry).1.buffers = [] := by
  unfold register at hfail ⊢
  dsimp only at hfail ⊢
  split
  · rename_i hok
    rw [hok] at hfail
    cases hfail
  · exact ⟨rfl, rfl⟩

theorem answer_setFlag {name value : Text.ForeignText}
    (hfail : (s.answer flags (.setFlag name value)).1.status? = some Status.error) :
    s.answer flags (.setFlag name value) = (.status Status.error, s, flags) := by
  rcases s.setFlag_cases flags name value with ⟨n, v, -, -, -, h⟩ | ⟨-, h⟩
  · rw [h] at hfail
    cases hfail
  · exact h

theorem answer_report (x : UnitHandle) (message : Text.ForeignText) :
    (s.answer flags (.report x message)).1 = .nothing := by
  by_cases hx : x = s.handle
  · subst hx
    cases hread : message.read <;>
      simp [answer, answerPlain, Callback.withoutSession?, Callback.handle?, answerOwn, hread]
  · rw [s.answer_of_foreign rfl (by simp) hx]
    rfl

theorem leaves_answerUnit {u : DeclaredUnit} (hu : s.unit? = some u)
    (hc : c.subject? = some s.handle) (hr : ∀ message, c ≠ .report s.handle message)
    (hfail : (s.answerUnit u c).1.status? = some Status.error) :
    s.Leaves flags c ((s.answerUnit u c).1, (s.answerUnit u c).2, flags) := by
  cases c with
  | accelVersion | vmVersion | flag | setFlag | cpuFeature | log => cases hc
  | report x message =>
    cases hc
    exact absurd rfl (hr message)
  | param x key b => exact .of_buffers (buffers_fillOne hfail) (not_spoils (by simp))
  | register x entry =>
    obtain ⟨hsession, hbuffers⟩ := unmarked_register hfail
    exact ⟨hsession, rfl, iff_of_true hbuffers (not_spoils (by simp))⟩
  | unitInfo x feature version params =>
    cases hc
    have hnot : (fillEach (u.option.info feature version params)).1 = false :=
      statusOf_eq_error_iff.1 (Option.some.inj hfail)
    refine ⟨rfl, rfl, ?_⟩
    rw [spoils_unitInfo_iff hu]
    exact fillEach_snd_eq_iff hnot

/-- A request about a unit that fails: the unit is not that of the session, or the registry does not
have it, or else what is asked of it cannot be done. -/
theorem leaves_answer_of_subject {x : UnitHandle} (hx : c.subject? = some x)
    (hr : ∀ message, c ≠ .report x message)
    (hfail : (s.answer flags c).1.status? = some Status.error) :
    s.Leaves flags c (s.answer flags c) := by
  have hscoped := Callback.isScoped_of_subject? hx
  by_cases hown : x = s.handle
  · subst hown
    have hanswer : s.answer flags c = _ :=
      s.answer_of_own (Callback.handle?_of_subject? hx) hr (by rintro l m rfl; cases hx)
    cases hu : s.unit? with
    | none =>
      rw [hanswer, hu]
      refine leaves_refused hscoped fun hs => ?_
      have hsome := hs.subject?.2
      rw [hu] at hsome
      cases hsome
    | some u =>
      rw [hu] at hanswer
      rw [hanswer] at hfail ⊢
      exact leaves_answerUnit hu hx hr hfail
  · rw [answer_of_subject hx hown]
    exact leaves_refused hscoped fun hs => hown (Option.some.inj (hx.symm.trans hs.subject?.1))

/-- A request that fails leaves all but perhaps a buffer of unit information. -/
theorem leaves_answer (hfail : (s.answer flags c).1.status? = some Status.error) :
    s.Leaves flags c (s.answer flags c) := by
  cases c with
  | vmVersion b | flag name b => exact .of_buffers (buffers_fillOne hfail) (not_spoils (by simp))
  | unitInfo x | param x | register x => exact leaves_answer_of_subject rfl (by simp) hfail
  | accelVersion | cpuFeature | log => cases hfail
  | report x message =>
    rw [answer_report] at hfail
    cases hfail
  | setFlag name value =>
    rw [answer_setFlag hfail]
    exact .of_buffers rfl (not_spoils (by simp))

end Session

/-! ### Machines -/

/-- What can fail means something only while a hook runs. -/
theorem Callback.isScoped_of_failed {m : Machine} {c : Callback}
    (hfail : ((Work.callback c).result m).status? = some Status.error) : c.isScoped := by
  obtain ⟨j, hresult, -, -⟩ := callback_eq c m
  rw [hresult] at hfail
  generalize ({ m with journal := j } : Machine) = m' at hfail
  cases hscope : m'.scope? with
  | none =>
    rw [(answered_of_none hscope).1] at hfail
    cases c <;> first | rfl | cases hfail
  | some scope =>
    obtain ⟨s, flags⟩ := scope
    rw [(answered_of_some hscope).1] at hfail
    cases c <;> first | rfl | cases hfail

/-- A request that fails writes nothing, whatever session is open and whatever it is given, except
where unit information is asked for and a buffer stands before one without room. Registries, flags
and all else are as before, and sessions only note down the request; its buffers are as before, if
and only if none of them was written in vain. -/
theorem failing_request_writes_nothing_iff (m : Machine) (c : Callback)
    (hfail : ((Work.callback c).result m).status? = some Status.error) :
    ((Work.callback c).after m).viewed Session.unmarked = m.viewed Session.unmarked ∧
    (((Work.callback c).result m).buffers = c.buffers ↔
      ∀ s flags, m.scope? = some (s, flags) → ¬ s.Spoils c) ∧
    ((∀ x feature version params, c ≠ .unitInfo x feature version params) →
      ((Work.callback c).result m).buffers = c.buffers) := by
  have hscoped := Callback.isScoped_of_failed hfail
  obtain ⟨j, hresult, hafter, hj⟩ := callback_eq c m
  cases hj hscoped
  have hleaves : ((Work.callback c).after m).viewed Session.unmarked = m.viewed Session.unmarked ∧
      (((Work.callback c).result m).buffers = c.buffers ↔
        ∀ s flags, m.scope? = some (s, flags) → ¬ s.Spoils c) := by
    cases hscope : m.scope? with
    | none =>
      obtain ⟨hreply, hsame⟩ := answered_of_none (c := c) hscope
      rw [hafter, hsame, hresult, hreply, Callback.withoutSession?_of_isScoped hscoped]
      exact ⟨rfl, iff_of_true (Callback.denied_of_isScoped hscoped).buffers (by simp)⟩
    | some scope =>
      obtain ⟨s, flags⟩ := scope
      obtain ⟨hreply, -, hsame⟩ := answered_of_some (c := c) hscope
      rw [hresult, hreply] at hfail
      have hleaves := Session.leaves_answer hfail
      rw [hafter, hresult, hreply, hleaves.buffers]
      refine ⟨hsame Session.unmarked ?_ hleaves.flags, by simp⟩
      rw [Session.unmarked_noted, hleaves.session]
  exact ⟨hleaves.1, hleaves.2, fun hc => hleaves.2.2 fun _ _ _ => Session.not_spoils hc⟩

def plainModule : UnitModule where
  location := "libA_1"
  init := some fun _ => .done Status.ok
  exports := some (.done (some ⟨abiVersion, 0, none⟩))

/-- A program with a unit that is declared without parameters. -/
def plainUnit : Program where
  settings := { enabled := true, units := ["libA_1"] }
  source := { load := fun _ => .ok plainModule, contains := fun _ => true }
  native := fun _ => none
  provider := fun _ => none
  steps := [.units .start]

open Startup in
/-- The startup of this program has come to the `init` hook of the unit. -/
def hookBegun : Machine :=
  let m : Machine := .ofProgram plainUnit
  let attached := attach { units := m.declares } m.nextHandle plainModule
  Startup.begun .init (attached.result m.afterDeclares) m.nextHandle
    (attached.after m.afterDeclares)

open Startup in
theorem callsHook_plainUnit : ∃ u hook r m₁ after outcome,
    CallsHook (.ofDepth 0) (.ofProgram plainUnit) .init u hook r m₁ after outcome ∧
      hookBegun = Startup.begun .init r u.handle m₁ := by
  let u : DeclaredUnit :=
    { handle := 2, option := ⟨"libA_1", "libA_1", "libA", some "1", none, []⟩ }
  have hus : (Machine.ofProgram plainUnit).declares = [] ++ u :: [] := by decide +kernel
  have hload : load (Machine.ofProgram plainUnit).afterDeclares.host.source u =
      .ok (plainModule, fun _ => .done Status.ok, .done (some ⟨abiVersion, 0, none⟩)) := rfl
  exact ⟨u, _, _, _, _, _, .init hus rfl rfl hload, rfl⟩

theorem failing_request_writes_nothing_iff_param :
    let c := .param 2 (.bytes [0x6b]) (.room [0x7f])
    ((Work.callback c).result hookBegun).status? = some Status.error ∧
      ((Work.callback c).after hookBegun).viewed Session.unmarked =
        hookBegun.viewed Session.unmarked ∧
      ((Work.callback c).result hookBegun).buffers = c.buffers := by
  intro c
  have hfail : ((Work.callback c).result hookBegun).status? = some Status.error := by
    decide +kernel
  obtain ⟨hafter, -, hbuffers⟩ := failing_request_writes_nothing_iff hookBegun c hfail
  exact ⟨hfail, hafter, hbuffers (by simp [c])⟩

/-- The feature is written before the buffer for the version is found to have no room. -/
theorem feature_written_by_failing_request :
    let c := .unitInfo 2 (.room [0x7f, 0x7f, 0x7f, 0x7f, 0x7f, 0x7f, 0x7f, 0x7f])
      (.room []) (.null 0)
    (Work.callback c).result hookBegun = .filled Status.error
        [.room [0x6c, 0x69, 0x62, 0x41, 0, 0x7f, 0x7f, 0x7f], .room [], .null 0] ∧
      ((Work.callback c).result hookBegun).buffers ≠ c.buffers := by
  decide +kernel

end AccelHost
