import AccelHost.Proofs.Admission
import AccelHost.Proofs.StartupMoves

/-!
Registrations from within hooks. What a unit asks its session to register, and how it is answered,
is in the history of the session. From that history alone follow the entries that the registry has
when the hook is over, and the first error that the session keeps.
-/
namespace AccelHost

/-- The registrations of a unit in a history, each with its answer. A request with the handle of
another unit is none of these. -/
def registrationsOf (x : UnitHandle) (log : List (Callback × CallbackReply)) :
    List (Option RawEntry × CallbackReply) :=
  log.filterMap fun
    | (.register handle entry, reply) => if handle = x then some (entry, reply) else none
    | _ => none

/-- What stands against a registration of a unit, after some entries. -/
def registrationFaults (unit : String) (before : List Entry) : Option RawEntry → List StartupError
  | none => [.invalidExportTable unit .nullRegistration]
  | some raw =>
    match raw.check unit with
    | .error fault => [.ofEntryFault unit 0 fault]
    | .ok e => Registry.conflicts unit before [e]

def accepted? (u : DeclaredUnit) (call : Option RawEntry × CallbackReply) : Option Entry :=
  if call.2 = .status Status.ok then
    (call.1.bind fun raw => (raw.check u.name).toOption).map (·.ownedBy u.handle)
  else none

/-- The entries of the registrations that were accepted, in order. -/
def acceptedEntries (u : DeclaredUnit) (calls : List (Option RawEntry × CallbackReply)) :
    List Entry := calls.filterMap (accepted? u)

/-- What stood against each registration that was rejected, in order. -/
def rejections (u : DeclaredUnit) (before : List Entry) :
    List (Option RawEntry × CallbackReply) → List StartupError
  | [] => []
  | call :: calls =>
    (if call.2 = .status Status.ok then [] else registrationFaults u.name before call.1) ++
      rejections u (before ++ (accepted? u call).toList) calls

theorem acceptedEntries_cons (u : DeclaredUnit) (call : Option RawEntry × CallbackReply)
    (calls : List (Option RawEntry × CallbackReply)) :
    acceptedEntries u (call :: calls) = (accepted? u call).toList ++ acceptedEntries u calls := by
  unfold acceptedEntries
  rw [List.filterMap_cons]
  cases accepted? u call <;> rfl

theorem Registry.Extends.unit?_some {r r' : Registry} {x : UnitHandle} {v : DeclaredUnit}
    (h : r.Extends r') (hv : r.unit? x = some v) :
    ∃ v', r'.unit? x = some v' ∧ v'.option = v.option := by
  have hbare (us : List DeclaredUnit) :
      (us.map fun u => { u with methods := [] }).find? (fun u => u.handle = x) =
        (us.find? fun u => u.handle = x).map fun u => { u with methods := [] } := List.find?_map ..
  have hunits := hbare r'.units
  rw [h.units, hbare r.units, show r.units.find? _ = some v from hv, Option.map_some] at hunits
  obtain ⟨v', hv', heq⟩ := Option.map_eq_some_iff.1 hunits.symm
  have hoption := congrArg DeclaredUnit.option heq
  exact ⟨v', hv', hoption⟩

theorem RawEntry.unit_of_check {raw : RawEntry} {unit : String} {e : Entry}
    (h : raw.check unit = .ok e) : e.unit = unit := by
  unfold check at h
  split at h
  · cases h
  · split at h
    · cases h
    · split at h
      · cases h
      · split at h
        · cases h
        · split at h
          · cases h
          · split at h
            · cases h
            · cases h
              rfl

namespace Session

variable {s s' : Session} {u v : DeclaredUnit} {es : List Entry} {flags : Flags}

/-- How a session answers a registration of its unit. -/
inductive RegisterEnd (s : Session) (u : DeclaredUnit) (es : List Entry) (entry : Option RawEntry) :
    CallbackReply × Session → Prop where
  | accepted {registry : Registry} :
    registrationFaults u.name es entry = [] →
    registry.Collects (es ++ (accepted? u (entry, .status Status.ok)).toList) →
    RegisterEnd s u es entry (.status Status.ok, { s with registry })
  | rejected {err : StartupError} : (registrationFaults u.name es entry).head? = some err →
    RegisterEnd s u es entry (.status Status.error, s.fail err)

theorem register_end (hv : s.unit? = some v) (hhandle : s.handle = u.handle)
    (hname : v.name = u.name) (hr : s.registry.Collects es) (entry : Option RawEntry) :
    RegisterEnd s u es entry (s.register v entry) := by
  unfold register
  rw [hname]
  cases entry with
  | none => exact .rejected rfl
  | some raw =>
    dsimp only
    cases hcheck : raw.check u.name with
    | error fault =>
      refine .rejected ?_
      simp only [registrationFaults, hcheck, List.head?_cons]
    | ok e =>
      have hunit : ∀ f ∈ [e], f.unit = v.name := by
        simpa [hname] using RawEntry.unit_of_check hcheck
      obtain ⟨herror, hok⟩ := Registry.registerEntries_end hv hunit hr
      rw [hname] at herror hok
      dsimp only
      cases hreg : s.registry.registerEntries s.handle [e] with
      | error err =>
        refine .rejected ?_
        simp only [registrationFaults, hcheck]
        exact herror err hreg
      | ok registry =>
        obtain ⟨hnone, hcollects⟩ := hok registry hreg
        refine .accepted ?_ ?_
        · simp only [registrationFaults, hcheck]
          exact hnone
        · simpa [accepted?, hcheck, Except.toOption, hhandle] using hcollects

theorem answer_register (hv : s.unit? = some v) (flags : Flags) (entry : Option RawEntry) :
    s.answer flags (.register s.handle entry) =
      ((s.register v entry).1, (s.register v entry).2, flags) := by
  rw [s.answer_of_own rfl (by simp) (by simp), hv]
  rfl

theorem answerOwn_other {c : Callback} (hc : ∀ x entry, c ≠ .register x entry) :
    (s.answerOwn c).2.registry = s.registry ∧ (s.answerOwn c).2.failure = s.failure := by
  have hunit (v : DeclaredUnit) : (s.answerUnit v c).2 = s := by
    cases c with
    | register x entry => exact absurd rfl (hc x entry)
    | _ => rfl
  unfold answerOwn
  split
  · split <;> exact ⟨rfl, rfl⟩
  · split
    · rw [hunit]
      exact ⟨rfl, rfl⟩
    · exact ⟨rfl, rfl⟩

theorem answerPlain_other {c : Callback} (hc : ∀ x entry, c ≠ .register x entry) :
    (s.answerPlain c).2.registry = s.registry ∧ (s.answerPlain c).2.failure = s.failure := by
  unfold answerPlain
  split
  · exact ⟨rfl, rfl⟩
  · split
    · exact ⟨rfl, rfl⟩
    · split
      · exact answerOwn_other hc
      · exact ⟨rfl, rfl⟩

theorem answer_other {c : Callback} (hc : ∀ entry, c ≠ .register s.handle entry) (flags : Flags) :
    (s.answer flags c).2.1.registry = s.registry ∧ (s.answer flags c).2.1.failure = s.failure := by
  by_cases hreg : ∃ x entry, c = .register x entry
  · obtain ⟨x, entry, rfl⟩ := hreg
    have hne : x ≠ s.handle := fun hx => hc entry (by rw [hx])
    rw [s.answer_of_foreign rfl (by simp) hne]
    exact ⟨rfl, rfl⟩
  · unfold answer
    split
    · exact ⟨rfl, rfl⟩
    · split
      · split <;> exact ⟨rfl, rfl⟩
      · exact ⟨rfl, rfl⟩
    · exact answerPlain_other fun x entry h => hreg ⟨x, entry, h⟩

theorem registrationsOf_cons_of_ne {x : UnitHandle} {c : Callback} {reply : CallbackReply}
    {log : List (Callback × CallbackReply)} (hc : ∀ entry, c ≠ .register x entry) :
    registrationsOf x ((c, reply) :: log) = registrationsOf x log := by
  unfold registrationsOf
  cases c with
  | register y entry =>
    have hne : y ≠ x := fun hx => hc entry (by rw [hx])
    rw [List.filterMap_cons_none (by simp [hne])]
  | _ => rfl

theorem registrationsOf_cons {x : UnitHandle} {entry : Option RawEntry} {reply : CallbackReply}
    {log : List (Callback × CallbackReply)} :
    registrationsOf x ((.register x entry, reply) :: log) =
      (entry, reply) :: registrationsOf x log := by
  simp [registrationsOf]

theorem unit?_after_answer (hv : s.unit? = some v) (flags : Flags) (c : Callback) :
    ∃ v', ((s.answer flags c).2.1.noted c (s.answer flags c).1).unit? = some v' ∧
      v'.option = v.option := by
  have hgrows := s.grows_answer flags c
  obtain ⟨v', hunit', hoption⟩ := hgrows.registry.unit?_some hv
  refine ⟨v', ?_, hoption⟩
  rw [unit?, noted, hgrows.handle]
  exact hunit'

theorem failure_fail_or (err : StartupError) (more : Option StartupError) :
    (s.fail err).failure.or more = s.failure.or (some err) := by
  unfold fail
  cases s.failure <;> rfl

/-- What a session has registered is what it says it has accepted, and it keeps the first error of
what it has rejected. Something stood against all that it has rejected. -/
theorem Answers.registrations {log : List (Callback × CallbackReply)} (h : s.Answers log s')
    (hv : ∃ v, s.unit? = some v ∧ v.name = u.name) (hhandle : s.handle = u.handle)
    (hr : s.registry.Collects es) :
    let calls := registrationsOf u.handle log
    s'.registry.Collects (es ++ acceptedEntries u calls) ∧
      s'.failure = s.failure.or (rejections u es calls).head? ∧
      (rejections u es calls = [] ↔ ∀ call ∈ calls, call.2 = .status Status.ok) := by
  dsimp only
  induction h generalizing es with
  | nil s => simpa [registrationsOf, acceptedEntries, rejections] using hr
  | @cons s s' c log flags hrest ih =>
    have hhandle' := (s.grows_answer flags c).handle.trans hhandle
    obtain ⟨v, hunit, hname⟩ := hv
    obtain ⟨v', hunit', hoption⟩ := unit?_after_answer hunit flags c
    have hname' : v'.name = u.name := (congrArg UnitOption.displayName hoption).trans hname
    have hv' : ∃ v, ((s.answer flags c).2.1.noted c (s.answer flags c).1).unit? = some v ∧
        v.name = u.name := ⟨v', hunit', hname'⟩
    by_cases hc : ∃ entry, c = .register u.handle entry
    · obtain ⟨entry, rfl⟩ := hc
      have hanswer := answer_register hunit flags entry
      rw [hhandle] at hanswer
      have hend := register_end hunit hhandle hname hr entry
      rw [hanswer] at ih hhandle' hv' ⊢
      rw [registrationsOf_cons, acceptedEntries_cons, rejections, ← List.append_assoc]
      generalize s.register v entry = answered at hend ih hv' hhandle' ⊢
      cases hend with
      | @accepted registry hfaults hcollects =>
        simp only [↓reduceIte, List.nil_append, List.forall_mem_cons, true_and]
        exact ih hv' hhandle' hcollects
      | @rejected err hfaults =>
        have hne : CallbackReply.status Status.error ≠ .status Status.ok := by decide
        have hnone : accepted? u (entry, .status Status.error) = none := if_neg hne
        obtain ⟨hcollects, hfailure, -⟩ := ih hv' hhandle' hr
        simp only [hnone, if_neg hne, Option.toList_none, List.append_nil]
        refine ⟨hcollects, hfailure.trans ?_, ?_⟩
        · rw [List.head?_append, hfaults, Option.some_or]
          exact failure_fail_or err _
        · refine iff_of_false (fun hnil => ?_) fun hall => hne (hall _ (List.mem_cons_self ..))
          rw [(List.append_eq_nil_iff.1 hnil).1] at hfaults
          cases hfaults
    · have hother := answer_other (s := s) (fun entry h => hc ⟨entry, hhandle ▸ h⟩) flags
      rw [registrationsOf_cons_of_ne fun entry h => hc ⟨entry, h⟩, ← hother.2]
      exact ih hv' hhandle' (by rw [noted, hother.1]; exact hr)

end Session

namespace Startup

/-- The registrations of the unit whose hook was called. -/
def HookEnd.calls (e : HookEnd) : List (Option RawEntry × CallbackReply) :=
  registrationsOf e.session.handle e.session.history

/-- What stands against a hook call: each registration that was rejected, and then its status. -/
def HookEnd.faults (e : HookEnd) (u : DeclaredUnit) (before : List Entry) (point : EntryPoint)
    (failed : String → HookFault → StartupError) : List StartupError :=
  rejections u before e.calls ++
    if e.status = Status.ok then [] else [failed u.name (e.session.fault point e.status)]

variable {n : Nested} {G : List UnitHandle} {m : Machine} {r : Registry} {u : DeclaredUnit}
  {es : List Entry}

/-- A hook call registers what it accepts, and its error is the first that stands against it. -/
theorem callHook_registrations (hn : n.Lawful) (ho : m.Orderly G) (point : EntryPoint)
    (hook : UnitHandle → Behaviour Status) (hv : ∃ v, r.unit? u.handle = some v ∧ v.name = u.name)
    (hr : r.Collects es) (failed : String → HookFault → StartupError) :
    let e := (callHook n point hook r u.handle).result m
    e.session.registry.Collects (es ++ acceptedEntries u e.calls) ∧
      e.error? point u.name failed = (e.faults u es point failed).head? := by
  intro e
  have hsession := session_callHook (x := u.handle) hn ho point hook r
  obtain ⟨log, hanswers⟩ := hsession.answers
  have hcalls : e.calls = registrationsOf u.handle log := by
    have hhistory : e.session.history = [] ++ log := hanswers.history_eq
    have hhandle : e.session.handle = u.handle := hsession.handle
    rw [HookEnd.calls, hhandle, hhistory, List.nil_append]
  obtain ⟨hcollects, hfailure, -⟩ := hanswers.registrations hv rfl hr
  rw [← hcalls] at hcollects hfailure
  have hkept : e.session.failure = (rejections u es e.calls).head? := hfailure
  refine ⟨hcollects, ?_⟩
  unfold HookEnd.error? HookEnd.faults
  rw [hkept]
  cases rejections u es e.calls with
  | cons err errs => rfl
  | nil =>
    rw [List.head?_nil, List.nil_append]
    by_cases hok : e.status = Status.ok <;>
      simp only [hok, ↓reduceIte, List.head?_nil, List.head?_cons]

end Startup

end AccelHost
