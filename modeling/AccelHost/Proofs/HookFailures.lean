import AccelHost.Proofs.HookEnds
import AccelHost.Proofs.Publication
import AccelHost.Proofs.StartupOutcome

/-!
Failures of hooks. A hook aborts its startup if a registration of its unit is rejected, or else if
its status tells so. The startup then reports the first rejection, or what the unit itself has
reported.
-/
namespace AccelHost

open Holding

namespace Startup

variable {n : Nested} {G : List UnitHandle} {X : List Holding} {us vs ws : List DeclaredUnit}
  {σ : UnitHandle → UnitState} {r r₁ : Registry} {m : Machine} {u : DeclaredUnit} {es : List Entry}

/-! ### Units behind others -/

theorem Settles.collects_of_none {faults : List StartupError} {r' : Registry}
    (h : Settles faults es (none, r')) : r'.Collects es :=
  h.collects (List.head?_eq_none_iff.1 h.error.symm)

theorem result_initUnits_append (h : (initUnits n r vs).result m = (none, r₁))
    (ws : List DeclaredUnit) :
    (initUnits n r (vs ++ ws)).result m =
      (initUnits n r₁ ws).result ((initUnits n r vs).after m) := by
  induction vs generalizing r m with
  | nil =>
    cases h
    rfl
  | cons v vs ih =>
    simp only [initUnits, List.cons_append, Work.result_bind, Work.after_bind] at h ⊢
    generalize (initUnit n r v).result m = res at h ⊢
    obtain ⟨_ | err, r'⟩ := res
    · exact ih h
    · cases h

theorem result_postInitUnits_append {xs : List UnitHandle}
    (h : (postInitUnits n r xs).result m = (none, r₁)) (ys : List UnitHandle) :
    (postInitUnits n r (xs ++ ys)).result m =
      (postInitUnits n r₁ ys).result ((postInitUnits n r xs).after m) := by
  induction xs generalizing r m with
  | nil =>
    cases h
    rfl
  | cons x xs ih =>
    simp only [postInitUnits, List.cons_append, Work.result_bind, Work.after_bind] at h ⊢
    generalize (postInitUnit n r x).result m = res at h ⊢
    obtain ⟨_ | err, r'⟩ := res
    · exact ih h
    · cases h

theorem Awaits.behind (h : Awaits (units X ++ G) us (vs ++ ws) .parsed σ r m) (hn : n.Lawful)
    (hc : r.Collects es) (hres : (initUnits n r vs).result m = (none, r₁)) :
    ∃ σ' es', Awaits (units X ++ G) us ws .parsed σ' r₁ ((initUnits n r vs).after m) ∧
      r₁.Collects es' := by
  induction vs generalizing r σ m es with
  | nil =>
    cases hres
    exact ⟨σ, es, h, hc⟩
  | cons v vs ih =>
    have hfirst := initUnit_settles hn h.orderly h.reads h.owned h.head_mem h.head_state hc
    have hnext (r' : Registry) (hunit : (initUnit n r v).result m = (none, r')) := h.next hn hunit
    simp only [initUnits, Work.result_bind, Work.after_bind] at hres ⊢
    generalize (initUnit n r v).result m = res at hfirst hnext hres ⊢
    obtain ⟨_ | err, r'⟩ := res
    · exact ih (hnext r' rfl).1 hfirst.collects_of_none hres
    · cases hres

theorem Awaits.behindPostInit (h : Awaits (units X ++ G) us (vs ++ ws) .activePending σ r m)
    (hn : n.Lawful) (ha : ∀ v ∈ vs ++ ws, m.Attached v) (hc : r.Collects es)
    (hres : (postInitUnits n r (vs.map (·.handle))).result m = (none, r₁)) :
    let m₁ := (postInitUnits n r (vs.map (·.handle))).after m
    ∃ σ' es', Awaits (units X ++ G) us ws .activePending σ' r₁ m₁ ∧ (∀ v ∈ ws, m₁.Attached v) ∧
      r₁.Collects es' := by
  dsimp only
  induction vs generalizing r σ m es with
  | nil =>
    cases hres
    exact ⟨σ, es, h, ha, hc⟩
  | cons v vs ih =>
    have hfirst := postInitUnit_settles hn h.orderly h.reads h.head_mem
      (ha v (List.mem_cons_self ..)) hc
    have hnext (r' : Registry) (hunit : (postInitUnit n r v.handle).result m = (none, r')) :=
      h.nextPostInit hn ha hunit
    simp only [List.map_cons, postInitUnits, Work.result_bind, Work.after_bind] at hres ⊢
    generalize (postInitUnit n r v.handle).result m = res at hfirst hnext hres ⊢
    obtain ⟨_ | err, r'⟩ := res
    · obtain ⟨hawaits, hattached, -⟩ := hnext r' rfl
      exact ih hawaits hattached hfirst.collects_of_none hres
    · cases hres

/-! ### Hooks that a startup calls -/

def hookFailed : EntryPoint → String → HookFault → StartupError
  | .postInit => .postInitFailed
  | _ => .initFailed

def stateOfFailed : EntryPoint → UnitState
  | .postInit => .postInitFailed
  | _ => .initFailed

def stateOfPassed : EntryPoint → UnitState
  | .postInit => .active
  | _ => .activePending

def stateIn (r : Registry) (u : DeclaredUnit) : Option UnitState :=
  (r.unit? u.handle).map (·.state)

/-- A hook that a startup from `m` calls. The units before that of the hook have passed the phase.
The hook is called at the machine `m₁` with the registry `r`; the unit leaves `after`, and the phase
comes to `outcome`. Between the phases there may be other operations. -/
inductive CallsHook (n : Nested) (m : Machine) : EntryPoint → DeclaredUnit →
    (UnitHandle → Behaviour Status) → Registry → Machine → Registry →
    Except StartupError Registry → Prop where
  | init {before behind : List DeclaredUnit} {u : DeclaredUnit} {r : Registry} {m₁ : Machine}
      {mod : UnitModule} {hook : UnitHandle → Behaviour Status}
      {exports : Behaviour (Option ExportTable)} :
      m.declares = before ++ u :: behind →
      (initUnits n { units := m.declares } before).result m.afterDeclares = (none, r) →
      (initUnits n { units := m.declares } before).after m.afterDeclares = m₁ →
      load m₁.host.source u = .ok (mod, hook, exports) →
      CallsHook n m .init u hook ((attach r u.handle mod).result m₁)
        ((attach r u.handle mod).after m₁) ((initUnit n r u).result m₁).2 ((initAll n).result m)
  | postInit {before behind : List DeclaredUnit} {u : DeclaredUnit} {r r₁ : Registry}
      {m₀ m₁ : Machine} {hook : UnitHandle → Behaviour Status} : Pending n m r m₀ →
      m.declares = before ++ u :: behind →
      (postInitUnits n r (before.map (·.handle))).result m₀ = (none, r₁) →
      (postInitUnits n r (before.map (·.handle))).after m₀ = m₁ →
      (m₁.host.modules.get? u.handle).bind (·.postInit) = some hook →
      CallsHook n m .postInit u hook r₁ m₁ ((postInitUnit n r₁ u.handle).result m₁).2
        ((postInitAll n r).result m₀)

/-- What a hook call begins with, and what its end means for its startup. -/
structure Decides (n : Nested) (point : EntryPoint) (u : DeclaredUnit)
    (hook : UnitHandle → Behaviour Status) (r : Registry) (m₁ : Machine) (after : Registry)
    (outcome : Except StartupError Registry) : Prop where
  orderly : ∃ G, m₁.Orderly G
  declared : ∃ v, r.unit? u.handle = some v ∧ v.name = u.name
  collects : r.Collects r.entries
  aborts : ∀ err, ((callHook n point hook r u.handle).result m₁).error? point u.name
      (hookFailed point) = some err →
    outcome = .error err ∧ stateIn after u = some (stateOfFailed point)
  passes : ((callHook n point hook r u.handle).result m₁).error? point u.name
      (hookFailed point) = none → stateIn after u = some (stateOfPassed point)

theorem stateIn_of_reads (hr : r.Reads us σ) (hnodup : (us.map (·.handle)).Nodup) (hu : u ∈ us) :
    stateIn r u = some (σ u.handle) := by
  obtain ⟨v, hv, -, hstate⟩ := hr.unit? hnodup hu
  rw [stateIn, hv, Option.map_some, hstate]

theorem stateIn_setState (hr : r.Reads us σ) (hnodup : (us.map (·.handle)).Nodup) (hu : u ∈ us)
    (next : UnitState) :
    stateIn (r.modifyUnit u.handle fun u => { u with state := next }) u = some next := by
  have hmoved : (r.modifyUnit u.handle fun u => { u with state := next }).Reads us
      (Function.update σ u.handle next) :=
    hr.modifyUnit (fun _ => rfl) (fun _ => rfl) fun _ => rfl
  rw [stateIn_of_reads hmoved hnodup hu, Function.update_self]

theorem initAll_of_mem_declares (n : Nested) (hu : u ∈ m.declares) :
    (initAll n).result m = (loadAll n { units := m.declares }).result m.afterDeclares ∧
      Registry.Reads { units := m.declares } m.declares fun _ => .parsed := by
  cases initAll_cases n m with
  | refused hrefused =>
    rw [declares_of_refused hrefused] at hu
    cases hu
  | off hoff =>
    simp [Machine.declares, hoff] at hu
  | loaded _ _ hdecl hres _ =>
    refine ⟨hres, ?_⟩
    rw [hdecl]
    exact reads_declared rfl

theorem initUnit_decides (hn : n.Lawful) (h : Awaits (units X ++ G) us (u :: vs) .parsed σ r m)
    (hc : r.Collects es) {mod : UnitModule} {hook : UnitHandle → Behaviour Status}
    {exports : Behaviour (Option ExportTable)}
    (hload : load m.host.source u = .ok (mod, hook, exports))
    {outcome : Except StartupError Registry}
    (houtcome : ∀ err, ((initUnit n r u).result m).1 = some err → outcome = .error err) :
    Decides n .init u hook ((attach r u.handle mod).result m) ((attach r u.handle mod).after m)
      ((initUnit n r u).result m).2 outcome := by
  have hx : u.handle ∈ us.map (·.handle) := List.mem_map_of_mem h.head_mem
  obtain ⟨hd, -, -⟩ := attach_does (X := X) (m := m) hx r mod
  obtain ⟨hreads, hcollects⟩ := attach_registry (m := m) h.reads h.head_mem hc mod
  obtain ⟨v, hv, hoption, -⟩ := hreads.unit? h.nodup h.head_mem
  obtain ⟨hended, -, -⟩ := initCall_end hn h.orderly h.reads h.owned h.head_mem h.head_state hc
    (load_eq_ok hload) hook
  have hresult := result_initUnit (n := n) (r := r) hload
  refine ⟨⟨_, hd.orderly h.orderly⟩, ⟨v, hv, congrArg UnitOption.displayName hoption⟩,
    ⟨fun _ => rfl, hcollects.distinct⟩, fun err herr => ?_, fun hnone => ?_⟩
  · have herror : ((initCall n r u mod hook).result m).error? .init u.name .initFailed = some err :=
      herr
    simp only [herror] at hresult
    refine ⟨houtcome err (congrArg Prod.fst hresult), ?_⟩
    rw [hresult]
    exact stateIn_setState hended h.nodup h.head_mem _
  · have herror : ((initCall n r u mod hook).result m).error? .init u.name .initFailed = none :=
      hnone
    simp only [herror] at hresult
    rw [hresult]
    have hpending := (advance_reads (X := X) (m := m) hended h.nodup h.head_mem .activePending).2
    split
    · rename_i r' htable
      obtain ⟨table, -, hreg⟩ := exists_of_bind_eq_ok htable
      have hextends := Registry.extends_of_registerEntries hreg
      rw [stateIn_of_reads (hpending.of_extends hextends) h.nodup h.head_mem, Function.update_self]
      rfl
    · exact stateIn_setState hended h.nodup h.head_mem _

theorem result_postInitUnit {x : UnitHandle} {v : DeclaredUnit} (hv : r.unit? x = some v)
    {hook : UnitHandle → Behaviour Status}
    (hhook : (m.host.modules.get? x).bind (·.postInit) = some hook) :
    let e := (callHook n .postInit hook r x).result m
    let error := e.error? .postInit v.name .postInitFailed
    (postInitUnit n r x).result m = (error, e.session.registry.modifyUnit x fun u =>
      { u with state := error.elim .active fun _ => .postInitFailed }) := by
  intro e error
  have hcall : (callHook n .postInit hook r x).result m = e := rfl
  have herror : e.error? .postInit v.name .postInitFailed = error := rfl
  unfold postInitUnit
  simp only [Work.result_bind, Work.result_host, Work.after_host, hhook, hv, Option.map_some,
    Option.getD_some, hcall, herror]
  clear_value error
  cases error <;> rfl

theorem postInitUnit_decides (hn : n.Lawful)
    (h : Awaits (units X ++ G) us (u :: vs) .activePending σ r m) (hc : r.Collects es)
    {hook : UnitHandle → Behaviour Status}
    (hhook : (m.host.modules.get? u.handle).bind (·.postInit) = some hook)
    {outcome : Except StartupError Registry}
    (houtcome : ∀ err, ((postInitUnit n r u.handle).result m).1 = some err →
      outcome = .error err) :
    Decides n .postInit u hook r m ((postInitUnit n r u.handle).result m).2 outcome := by
  have hx : u.handle ∈ us.map (·.handle) := List.mem_map_of_mem h.head_mem
  obtain ⟨v, hv, hoption, -⟩ := h.reads.unit? h.nodup h.head_mem
  have hname : v.name = u.name := congrArg UnitOption.displayName hoption
  obtain ⟨-, hextends⟩ := callHook_does (X := X) hn h.orderly hx .postInit hook r
  have hended := h.reads.of_extends hextends
  have hresult := result_postInitUnit (n := n) hv hhook
  rw [hname] at hresult
  refine ⟨⟨_, h.orderly⟩, ⟨v, hv, hname⟩, ⟨fun _ => rfl, hc.distinct⟩, fun err herr => ?_,
    fun hnone => ?_⟩
  · have herror : ((callHook n .postInit hook r u.handle).result m).error? .postInit u.name
        .postInitFailed = some err := herr
    simp only [herror] at hresult
    refine ⟨houtcome err (congrArg Prod.fst hresult), ?_⟩
    rw [hresult]
    exact stateIn_setState hended h.nodup h.head_mem _
  · have herror : ((callHook n .postInit hook r u.handle).result m).error? .postInit u.name
        .postInitFailed = none := hnone
    simp only [herror] at hresult
    rw [hresult]
    exact stateIn_setState hended h.nodup h.head_mem _

variable {point : EntryPoint} {hook : UnitHandle → Behaviour Status} {m₁ : Machine}
  {after : Registry} {outcome : Except StartupError Registry}

theorem CallsHook.decides (h : CallsHook n m point u hook r m₁ after outcome) (hn : n.Lawful)
    (ho : m.Orderly G) : Decides n point u hook r m₁ after outcome := by
  cases h with
  | @init before behind _ r m₁ mod _ exports hus hbefore hafter hload =>
    subst hafter
    have ho₁ := (orderly_afterDeclares (X := []) ho (moves_afterDeclares [] m)).1
    obtain ⟨hres, hreads⟩ := initAll_of_mem_declares n (u := u) (m := m) (by rw [hus]; simp)
    have hawaits : Awaits (units [] ++ G) m.declares (before ++ u :: behind) .parsed
        (fun _ => .parsed) { units := m.declares } m.afterDeclares := by
      rw [← hus]
      exact .all ho₁ hreads fun _ he => by cases he
    have hempty := Registry.collects_empty m.declares
    obtain ⟨σ', es', hthere, hcollects⟩ := hawaits.behind hn hempty hbefore
    refine initUnit_decides hn hthere hcollects hload fun err herr => ?_
    have hall := result_initUnits_append hbefore (u :: behind)
    rw [← hus, initUnits, Work.result_bind] at hall
    rw [hres, result_loadAll, hall]
    generalize (initUnit n r u).result _ = res at herr ⊢
    obtain ⟨error, r'⟩ := res
    cases herr
    rfl
  | @postInit before behind _ r r₁ m₀ m₁ _ hp hus hbefore hafter hhook =>
    subst hafter
    obtain ⟨-, -, -, hs, ho₁⟩ := hp.does hn ho
    have hsound := initAll_sound hn ho hp.initialized
    have hawaits : Awaits (units [] ++ G) m.declares (before ++ u :: behind) .activePending
        (fun _ => .activePending) r m₀ := by
      rw [← hus]
      exact .all ho₁ hs.reads hs.owned
    have hattached : ∀ v ∈ before ++ u :: behind, m₀.Attached v := by
      rw [← hus]
      exact hs.attached
    obtain ⟨σ', es', hthere, -, hcollects⟩ :=
      hawaits.behindPostInit hn hattached ⟨fun _ => rfl, hsound.distinct⟩ hbefore
    refine postInitUnit_decides hn hthere hcollects hhook fun err herr => ?_
    have hall := result_postInitUnits_append hbefore ((u :: behind).map (·.handle))
    rw [← List.map_append, ← hus, List.map_cons, postInitUnits, Work.result_bind] at hall
    rw [result_postInitAll hs.reads.handles_eq, hall]
    generalize (postInitUnit n _ u.handle).result _ = res at herr ⊢
    obtain ⟨error, r'⟩ := res
    cases herr
    rfl

/-- How a hook call ends: with a registration that is rejected, with a status that tells a failure,
or well. -/
theorem Decides.error?_cases (h : Decides n point u hook r m₁ after outcome) (hn : n.Lawful)
    (failed : String → HookFault → StartupError) :
    let e := (callHook n point hook r u.handle).result m₁
    (∃ pre entry post err, e.calls = pre ++ (entry, .status Status.error) :: post ∧
      (∀ call ∈ pre, call.2 = .status Status.ok) ∧
      registrationFaults u.name (r.entries ++ acceptedEntries u pre) entry = [err] ∧
      e.error? point u.name failed = some err) ∨
    ((∀ call ∈ e.calls, call.2 = .status Status.ok) ∧
      e.error? point u.name failed =
        if e.status = Status.ok then none
        else some (failed u.name (e.session.fault point e.status))) := by
  intro e
  obtain ⟨G, ho⟩ := h.orderly
  have hjudged : Judged u r.entries e.calls :=
    callHook_judged hn ho point hook h.declared h.collects
  have herror : e.error? point u.name failed = (e.faults u r.entries point failed).head? :=
    (callHook_registrations hn ho point hook h.declared h.collects failed).2
  rw [herror, HookEnd.faults]
  rcases hjudged.cases_rejected with ⟨hall, hnone⟩ |
      ⟨pre, entry, post, err, hcalls, hall, hfirst, hhead⟩
  · refine .inr ⟨hall, ?_⟩
    rw [hnone, List.nil_append]
    by_cases hstatus : e.status = Status.ok
    · rw [if_pos hstatus, if_pos hstatus, List.head?_nil]
    · rw [if_neg hstatus, if_neg hstatus, List.head?_cons]
  · refine .inl ⟨pre, entry, post, err, hcalls, hall, hfirst, ?_⟩
    rw [List.head?_append, hhead, Option.some_or]

theorem Decides.error?_iff (h : Decides n point u hook r m₁ after outcome) (hn : n.Lawful)
    (failed : String → HookFault → StartupError) :
    let e := (callHook n point hook r u.handle).result m₁
    let rejected := ∃ call ∈ e.calls, call.2 ≠ .status Status.ok
    ((∃ err, e.error? point u.name failed = some err) ↔ rejected ∨ e.status ≠ Status.ok) ∧
      (¬rejected → e.error? point u.name failed =
        if e.status = Status.ok then none
        else some (failed u.name (e.session.fault point e.status))) := by
  intro e rejected
  rcases h.error?_cases hn failed with ⟨pre, entry, post, err, hcalls, -, -, herr⟩ | ⟨hall, herr⟩
  · have hrejected : rejected :=
      ⟨(entry, .status Status.error), by simp [e, hcalls], Status.error_ne_ok⟩
    exact ⟨iff_of_true ⟨err, herr⟩ (.inl hrejected), fun h => absurd hrejected h⟩
  · have hnone : ¬rejected := fun ⟨call, hcall, hne⟩ => hne (hall call hcall)
    refine ⟨?_, fun _ => herr⟩
    rw [or_iff_right hnone, herr]
    by_cases hs : e.status = Status.ok <;> simp [e, hs]

end Startup

open Startup in
/-- A failing hook is reported as it failed. A unit ends in the state of failure if a registration
of its own was rejected, or if its status tells a failure. The startup then comes to the error of
the first rejection, whatever was registered after it; if there is none, it tells the reports of the
unit in their order, or else the status. A hook that does nothing but ask its session has asked for
what is in the history; a hook of the kit that fails has reported its message last. -/
theorem hook_failure_reported (d : Nat) :
    (∀ (program : Program) (ops : List Op),
      ((ops.mapM (Op.answer (.ofDepth d))).after (.ofProgram program)).Orderly []) ∧
    (∀ m err, (initAll (.ofDepth d)).result m = .error err →
      (start (.ofDepth d)).result m = .error err) ∧
    (∀ m r err, (initAll (.ofDepth d)).result m = .ok r →
      (postInitAll (.ofDepth d) r).result ((initAll (.ofDepth d)).after m) = .error err →
      (start (.ofDepth d)).result m = .error err) ∧
    ∀ (G : List UnitHandle) (m : Machine), m.Orderly G →
      ∀ point u hook r m₁ after outcome,
      CallsHook (.ofDepth d) m point u hook r m₁ after outcome →
      let e := (callHook (.ofDepth d) point hook r u.handle).result m₁
      let rejected := ∃ call ∈ e.calls, call.2 ≠ .status Status.ok
      (∀ pre entry reply post, e.calls = pre ++ (entry, reply) :: post →
        reply = .status
          (if registrationFaults u.name (r.entries ++ acceptedEntries u pre) entry = []
          then Status.ok else Status.error)) ∧
      (stateIn after u = some (stateOfFailed point) ↔ rejected ∨ e.status ≠ Status.ok) ∧
      (¬rejected ∧ e.status = Status.ok → stateIn after u = some (stateOfPassed point)) ∧
      (rejected → ∃ pre entry post err, e.calls = pre ++ (entry, .status Status.error) :: post ∧
        (∀ call ∈ pre, call.2 = .status Status.ok) ∧
        registrationFaults u.name (r.entries ++ acceptedEntries u pre) entry = [err] ∧
        outcome = .error err) ∧
      (¬rejected ∧ e.status ≠ Status.ok →
        ∃ fault, outcome = .error (hookFailed point u.name fault) ∧
        fault.message =
          if e.reports = [] then s!"{point.symbol} returned status {e.status.toInt}"
          else "; ".intercalate e.reports) ∧
      ((hook u.handle).OnlyCalls → (hook u.handle).Asks e.session.history e.status) ∧
      ∀ body message, hook = Kit.hook (some abiVersion) body →
        (Nested.runCode (.ofDepth d) (body ⟨u.handle⟩)).result (Startup.begun point r u.handle m₁) =
          .error message →
        e.status = Status.error ∧ e.reports.getLast? = some (Kit.sanitize message) := by
  have hn := Nested.lawful_ofDepth d
  refine ⟨fun program ops => Op.orderly_answers d ops (Machine.orderly_ofProgram program),
    fun m err herr => (result_start_of_initAll_error herr).1,
    fun m r err hr herr => (result_start_of_error hr herr).1,
    fun G m ho point u hook r m₁ after outcome h => ?_⟩
  intro e rejected
  have hdecides := h.decides hn ho
  obtain ⟨G₁, ho₁⟩ := hdecides.orderly
  have hjudged : Judged u r.entries e.calls :=
    callHook_judged hn ho₁ point hook hdecides.declared hdecides.collects
  have hreports : e.session.reports = e.reports := callHook_reports hn ho₁ point hook
  have hne : stateOfPassed point ≠ stateOfFailed point := by cases point <;> decide
  obtain ⟨hfails, hstatus⟩ := hdecides.error?_iff hn (hookFailed point)
  refine ⟨fun pre entry reply post hcalls => ?_, ?_, ?_, ?_, ?_,
    fun hc => callHook_asks (.ofDepth d) m₁ point r hc, ?_⟩
  · rw [hcalls] at hjudged
    exact hjudged.reply_eq
  · refine Iff.trans ?_ hfails
    constructor
    · intro hfailed
      apply Option.ne_none_iff_exists'.1
      intro hnone
      have hpassed := hdecides.passes hnone
      rw [hfailed] at hpassed
      exact hne (Option.some.inj hpassed).symm
    · rintro ⟨err, herr⟩
      exact (hdecides.aborts err herr).2
  · rintro ⟨hnone, hs⟩
    apply hdecides.passes
    have herror := hstatus hnone
    rwa [if_pos hs] at herror
  · rintro ⟨call, hcall, hne⟩
    rcases hdecides.error?_cases hn (hookFailed point) with
      ⟨pre, entry, post, err, hcalls, hall, hfirst, herr⟩ | ⟨hall, -⟩
    · exact ⟨pre, entry, post, err, hcalls, hall, hfirst, (hdecides.aborts err herr).1⟩
    · exact absurd (hall call hcall) hne
  · rintro ⟨hnone, hs⟩
    have herror := hstatus hnone
    rw [if_neg hs] at herror
    refine ⟨_, (hdecides.aborts _ herror).1, ?_⟩
    rw [Session.message_fault, hreports]
  · rintro body message rfl hbody
    obtain ⟨hfailed, hlast⟩ := callHook_kit hn ho₁ point body hbody
    rw [← hreports]
    exact ⟨hfailed, hlast⟩

/-- A module whose `init` reports something and then fails with a message that has a NUL. -/
def failingModule : UnitModule where
  location := "libMath_1"
  init := some (Kit.hook (some abiVersion) fun env => do
    env.report "no tables"
    return .error "a\x00b")
  exports := some (.done (some ⟨abiVersion, 0, none⟩))

def failingInit : Program where
  settings := { enabled := true, units := ["libMath_1"] }
  source := { load := fun _ => .ok failingModule, contains := fun _ => true }
  native := fun _ => none
  provider := fun _ => none
  steps := []

open Startup in
/-- The startup of this program tells both messages, the second without its NUL. -/
theorem hook_failure_reported_failingInit :
    let m : Machine := .ofProgram failingInit
    let u : DeclaredUnit :=
      { handle := 2, option := ⟨"libMath_1", "libMath_1", "libMath", some "1", none, []⟩ }
    let outcome := (initAll (.ofDepth 0)).result m
    m.Orderly [] ∧
      (∃ hook r m₁ after, CallsHook (.ofDepth 0) m .init u hook r m₁ after outcome) ∧
      ∃ fault, outcome = .error (.initFailed "libMath_1" fault) ∧
        fault.message = "no tables; a\\0b" := by
  intro m u outcome
  have ho : m.Orderly [] := Machine.orderly_ofProgram failingInit
  have hus : m.declares = [] ++ u :: [] := by decide +kernel
  let r : Registry := { units := m.declares }
  let hook := failingModule.init.getD fun _ => .done Status.ok
  let begun := (attach r u.handle failingModule).result m.afterDeclares
  let m₁ := (attach r u.handle failingModule).after m.afterDeclares
  have hcalled : CallsHook (.ofDepth 0) m .init u hook begun m₁
      ((initUnit (.ofDepth 0) r u).result m.afterDeclares).2 outcome := .init hus rfl rfl rfl
  let e := (callHook (.ofDepth 0) .init hook begun u.handle).result m₁
  have hrejected : ¬∃ call ∈ e.calls, call.2 ≠ .status Status.ok := by decide +kernel
  have hstatus : e.status ≠ Status.ok := by decide +kernel
  have hreports : e.reports = ["no tables", "a\\0b"] := by decide +kernel
  obtain ⟨fault, hfault, hmessage⟩ :=
    ((hook_failure_reported 0).2.2.2 [] m ho .init u hook begun m₁ _ outcome hcalled).2.2.2.2.1
      ⟨hrejected, hstatus⟩
  refine ⟨ho, ⟨hook, begun, m₁, _, hcalled⟩, fault, hfault, ?_⟩
  have htext : fault.message =
      if e.reports = [] then s!"{EntryPoint.init.symbol} returned status {e.status.toInt}"
      else "; ".intercalate e.reports := hmessage
  rw [htext, if_neg (by rw [hreports]; exact List.cons_ne_nil _ _), hreports]
  decide

end AccelHost
