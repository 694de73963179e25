import AccelHost.Proofs.Custody
import AccelHost.Proofs.Publication
import AccelHost.Proofs.Providers
import AccelHost.Samples.Math

/-!
Calls and released modules. An entry is loaded as long as its unit has its module; from the moment
the module is released every use of the entry is refused, for good, and neither native function nor
provider is called. Modules are there until the last unit is finalized.
-/
namespace AccelHost

open Holding

/-! ### Uses of an entry -/

namespace Dispatch

/-- Work that an unloaded unit has refused: it names the method and the unit, and does nothing else
than to leave some machine. -/
def Refused {α : Type} (e : Entry) (m m' : Machine) (w : Work (Except DispatchError α)) : Prop :=
  w.result m = .error (.unitUnloaded e.method e.unit) ∧ w.after m = m'

/-- The machine at which a mode has waited for the compiled calls. -/
def waited (rs : Replacements) : CallMode → Machine → Machine
  | .interpreted, m => m
  | .compiled, m => m.await (.calls rs.id)

/-- What becomes of a unit's entry once the module is released. Every use of the entry is refused:
to lower or compile it, to interpret it, to call a plan of it, and to call its method by
replacements, whatever they have compiled. Nothing is done but to wait for the compiled calls where
these are asked for. To look for the native function is no such use. Who does so has to ask first
whether the entry is loaded, and is told that it is not; else a function that is known is told, and
a provider that gave no answer yet is asked, as ever. -/
structure Refuses (e : Entry) (m : Machine) : Prop where
  view : m.host.view e = ⟨e, false⟩
  lower : ∀ n, Refused e m m (lower n e)
  compileEntry : ∀ n, Refused e m m (compileEntry n e)
  interpret : ∀ n args, Refused e m m (interpret n e args)
  call : ∀ n p args, p.entry = e → Refused e m m (call n p args)
  compile : ∀ n rs method, rs.published.find? method = some e → rs.compiled.get? method = none →
    Refused e m (m.await (.calls rs.id)) (compile n rs method)
  invoke : ∀ n rs method mode args, rs.published.find? method = some e →
    (∀ c, rs.compiled.get? method = some c → c.plan.entry = e) →
    Refused e m (waited rs mode m) (invoke n rs method mode args)
  known : ∀ n, (∀ provider data, e.target = .provided provider data →
      (m.host.provided.get? e.id).isSome) →
    (nativeFunc n e).result m = m.host.native? e ∧ (nativeFunc n e).after m = m
  asked : ∀ d (G : List UnitHandle) provider data, m.Orderly G →
    e.target = .provided provider data → m.host.provided.get? e.id = none →
    '\x00' ∉ e.nativeName.toList → ∃ events, ((nativeFunc (.ofDepth d) e).after m).trace =
      m.trace ++ .asked e.id provider e.nativeName data :: events

variable {n : Nested} {m : Machine} {e : Entry}

theorem refused_lower (n : Nested) (hl : m.host.isLoaded e = false) :
    Refused e m m (lower n e) := by
  refine ⟨?_, ?_⟩
  · simp only [result_lower, hl, Bool.false_eq_true, ↓reduceIte]
  · simp only [after_lower, asked, hl, Bool.false_eq_true, ↓reduceIte]

theorem refused_call {p : CallPlan} (n : Nested) (args : List Value) (hp : p.entry = e)
    (hl : m.host.isLoaded e = false) : Refused e m m (call n p args) := by
  subst hp
  exact call_of_unloaded n args hl

theorem refused_of_lower {α : Type}
    {f : Except DispatchError CallPlan → Work (Except DispatchError α)}
    (hl : m.host.isLoaded e = false) (hf : ∀ err, f (.error err) = pure (.error err)) :
    Refused e m m (lower n e >>= f) := by
  obtain ⟨hresult, hafter⟩ := refused_lower n hl
  simp only [Refused, Work.result_bind, Work.after_bind, hresult, hafter, hf, Work.result_pure,
    Work.after_pure, and_self]

theorem refused_compile {rs : Replacements} {method : Method} (n : Nested)
    (hl : m.host.isLoaded e = false) (hfind : rs.published.find? method = some e)
    (hnone : rs.compiled.get? method = none) :
    Refused e m (m.await (.calls rs.id)) (compile n rs method) := by
  obtain ⟨hresult, hafter⟩ : Refused e (m.hold (.calls rs.id)) (m.hold (.calls rs.id))
      (lowerKept n rs method e) := refused_of_lower hl fun _ => rfl
  unfold compile
  simp only [Refused, Work.result_bind, Work.after_bind, Work.after_await, hnone, hfind,
    Work.result_holding, Work.after_holding, Machine.hold_await, hresult, hafter, true_and]
  rfl

theorem refused_invoke {rs : Replacements} {method : Method} (n : Nested) (mode : CallMode)
    (args : List Value) (hl : m.host.isLoaded e = false)
    (hfind : rs.published.find? method = some e)
    (hcached : ∀ c, rs.compiled.get? method = some c → c.plan.entry = e) :
    Refused e m (waited rs mode m) (invoke n rs method mode args) := by
  cases mode with
  | interpreted =>
    simp only [invoke, hfind]
    exact refused_of_lower hl fun _ => rfl
  | compiled =>
    cases hc : rs.compiled.get? method with
    | some c =>
      have hcall := refused_call (m := m.await (.calls rs.id)) n args (hcached c hc) hl
      simp only [invoke, compile, hc, Refused, Work.result_bind, Work.after_bind,
        Work.after_await, Work.result_pure, Work.after_pure]
      exact hcall
    | none =>
      obtain ⟨hresult, hafter⟩ := refused_compile n hl hfind hc
      simp only [Refused, invoke, Work.result_bind, Work.after_bind, hresult, hafter,
        Work.result_pure, Work.after_pure, true_and]
      rfl

/-- A function that is known is told, whether or not the entry is loaded. -/
theorem nativeFunc_of_known (n : Nested)
    (h : ∀ provider data, e.target = .provided provider data →
      (m.host.provided.get? e.id).isSome) :
    (nativeFunc n e).result m = m.host.native? e ∧ (nativeFunc n e).after m = m := by
  unfold nativeFunc Host.native?
  cases ht : e.target with
  | direct code => exact ⟨rfl, rfl⟩
  | provided provider data =>
    obtain ⟨answer, hanswer⟩ := Option.isSome_iff_exists.1 (h provider data ht)
    simp only [Work.result_bind, Work.after_bind, Work.result_host, Work.after_host, hanswer]
    exact ⟨rfl, rfl⟩

/-- A provider that gave no answer yet is asked, whether or not the entry is loaded. -/
theorem trace_nativeFunc (hn : n.Lawful) {G : List UnitHandle} (ho : m.Orderly G)
    {provider : CodeRef} {data : Option CodeRef} (ht : e.target = .provided provider data)
    (hnone : m.host.provided.get? e.id = none) (hname : '\x00' ∉ e.nativeName.toList) :
    ∃ events, ((nativeFunc n e).after m).trace =
      m.trace ++ .asked e.id provider e.nativeName data :: events := by
  have hheld : (m.hold (.answer e.id)).Orderly G := ho.of_same rfl { Host.Same.refl _ with } rfl
  obtain ⟨events, hevents⟩ := trace_askProvider hn data hheld hname
  refine ⟨events, ?_⟩
  unfold nativeFunc
  simp only [ht, Work.after_bind, Work.result_host, Work.after_host, hnone, Work.after_holding,
    Work.after_modifyHost, Work.after_pure]
  exact hevents

theorem refuses_of_unloaded (hl : m.host.isLoaded e = false) : Refuses e m where
  view := by rw [Host.view, hl]
  lower n := refused_lower n hl
  compileEntry n := refused_of_lower hl fun _ => rfl
  interpret n args := refused_of_lower hl fun _ => rfl
  call n p args hp := refused_call n args hp hl
  compile n rs method hfind hnone := refused_compile n hl hfind hnone
  invoke n rs method mode args hfind hcached := refused_invoke n mode args hl hfind hcached
  known n := nativeFunc_of_known n
  asked d G provider data ho ht hnone hname :=
    trace_nativeFunc (Nested.lawful_ofDepth d) ho ht hnone hname

theorem entry_of_compileEntry {c : CompiledCall} (h : (compileEntry n e).result m = .ok c) :
    c.plan.entry = e := by
  unfold compileEntry at h
  rw [Work.result_bind] at h
  cases hp : (lower n e).result m with
  | error err =>
    rw [hp] at h
    cases h
  | ok p =>
    rw [hp] at h
    cases h
    obtain ⟨-, func, rfl, -⟩ := eq_ofEntry_of_lower hp
    rfl

end Dispatch

/-! ### Entries and their units -/

namespace Host

variable (h : Host)

/-- The registries that entries may be obtained from: of units that are pending or in use, as they
are published, and those without a runtime. -/
def registries : List Registry :=
  h.pending.toList ++ (h.runtime.toList.flatMap fun r => [r.registry, r.replacements.published]) ++
    (h.bare :: h.bareReplacements.toList.map (·.published))

variable {h} {next : UnitHandle} {e : Entry}

theorem Orderly.owner_of_mem (ho : h.Orderly next) {r : Registry} (hr : r ∈ h.registries)
    (he : e ∈ r.entries) : ∃ x ∈ h.held, e.owner = some x := by
  have hserved {rt : Runtime} (hrt : h.runtime = some rt) (he : e ∈ rt.registry.entries) :
      ∃ x ∈ h.held, e.owner = some x := by
    obtain ⟨x, hx, hown⟩ := (ho.runtime rt hrt).registry.1 e he
    refine ⟨x, ?_, hown⟩
    rw [held, hrt]
    exact List.mem_append_right _ (List.mem_append_left _ hx)
  have hbare {x : UnitHandle} (hx : x ∈ h.bare.handles) : x ∈ h.held :=
    List.mem_append_right _ (List.mem_append_right _ hx)
  simp only [registries, List.mem_append, List.mem_cons, Option.mem_toList, List.mem_flatMap,
    List.mem_map, List.not_mem_nil, or_false] at hr
  rcases hr with (hp | ⟨rt, hrt, rfl | rfl⟩) | rfl | ⟨s, hs, rfl⟩
  · obtain ⟨x, hx, hown⟩ := (ho.pending r hp).1 e he
    refine ⟨x, ?_, hown⟩
    rw [held, hp]
    exact List.mem_append_left _ hx
  · exact hserved hrt he
  · exact hserved hrt ((ho.runtime rt hrt).published ▸ he)
  · obtain ⟨x, hx, hown⟩ := ho.bare e he
    exact ⟨x, hbare hx, hown⟩
  · obtain ⟨x, hx, hown⟩ := (ho.exposed s hs).owned e he
    exact ⟨x, hbare hx, hown⟩

end Host

namespace Startup

variable {n : Nested} {X : List Holding} {G : List UnitHandle} {m m₁ m' : Machine} {r : Registry}
  {rt : Runtime}

/-! ### The ends of a startup -/

theorem Pending.moves (h : Pending n m r m₁) (hn : n.Lawful) (ho : m.Orderly (units X ++ G)) :
    Moves X m (ofUnits r.handles ++ X) m₁ ∧ m₁.host.Holds .activePending r := by
  obtain ⟨hinit, ops, rfl⟩ := h
  have h₁ : Moves X m (ofUnits r.handles ++ X) ((initAll n).after m) := by
    have hm := initAll_carries (X := X) hn ho
    rwa [hinit] at hm
  have hin := (h₁.orderly ho).1.in_hand
  have h₂ : Moves [] ((initAll n).after m) [] _ := answers_carries (X := []) hn ops hin
  refine ⟨h₁.trans (answers_carries hn ops (h₁.orderly ho).1), ?_⟩
  exact (holds_of_initAll hn ho hinit).of_framed h₂.around (h₂.orderly hin).2
    fun x hx => List.mem_append_left _ hx

theorem Running.moves (h : Running n m rt m') (hn : n.Lawful) (ho : m.Orderly (units X ++ G)) :
    Moves X m X m' := by
  obtain @⟨r, r', m₁, ops, hpending, hpost, rfl, -, -⟩ := h
  obtain ⟨h₁, hholds⟩ := hpending.moves hn ho
  have ho₁ := (h₁.orderly ho).1
  have h₂ : Moves (ofUnits r.handles ++ X) m₁ (ofUnits r'.handles ++ X)
      ((postInitAll n r).after m₁) := by
    have hm := postInitAll_carries hn hholds ho₁
    rwa [hpost] at hm
  have ho₂ := (h₂.orderly ho₁).1
  have h₃ := UnitOp.install_carries hn (holds_of_postInitAll hn ho₁ hholds hpost) ho₂
  exact ((h₁.trans h₂).trans h₃).trans (answers_carries hn ops (h₃.orderly ho₂).1)

end Startup

theorem Does.custody {xs : List UnitHandle} {es : List TraceEvent} {G : List UnitHandle}
    {m m' : Machine} (h : Does [] xs es m m') (hc : m.Custody (xs ++ G)) :
    m'.Custody (xs ++ G) := by
  have hm := h.moves
  rw [List.append_nil] at hm
  have hin : m.Custody (units (ofUnits xs) ++ G) := by rwa [units_ofUnits]
  have hc' := hin.moves hm
  rwa [units_ofUnits] at hc'

namespace Startup

variable {n : Nested} {G : List UnitHandle} {m m₁ m' : Machine} {rt : Runtime}

theorem custody_afterDeclares (hc : m.Custody G) :
    m.afterDeclares.Custody (m.declares.map (·.handle) ++ G) := by
  have hin : m.Custody (units [] ++ G) := hc
  have hc' := hin.moves (moves_afterDeclares [] m)
  rwa [List.append_nil, units_ofUnits] at hc'

theorem custody_retired (hc : m.Custody G) (hrt : m.host.runtime = some rt) :
    m.retired.Custody (rt.registry.handles ++ G) := by
  have hin : m.Custody (units [] ++ G) := hc
  have hc' := hin.moves (.retire hrt)
  rwa [List.append_nil, units_ofUnits] at hc'

theorem gone_of_does {us : List DeclaredUnit} {es : List TraceEvent}
    (hd : Does [] (us.map (·.handle)) es m m') (hc : m.Custody (us.map (·.handle) ++ G))
    (hnone : ∀ x ∈ us.map (·.handle), m'.host.modules.get? x = none) :
    m'.Custody G ∧ ∀ u ∈ us, m'.Gone G u.handle := by
  obtain ⟨hc', hgone⟩ := (hd.custody hc).forget hnone
  exact ⟨hc', fun u hu => hgone _ (List.mem_map_of_mem hu)⟩

theorem Running.gone (h : Running n m rt m₁) (hn : n.Lawful) (hc : m.Custody G)
    (hends : rt.finalized = false →
      m₁.retired.Orderly (m.declares.map (·.handle) ++ (units [] ++ G)) →
      rt.registry.Reads m.declares (fun _ => .active) → (∀ v ∈ m.declares, m₁.retired.Attached v) →
      ∃ report, Ends [] m.declares (fun _ => .active) m₁.retired m' report) :
    m'.Custody G ∧ ∀ u ∈ m.declares, m'.Gone G u.handle := by
  obtain ⟨_, _, _, _, _, hreads, ha, _, ho₁, hrt⟩ := h.ready hn hc.orderly
  have hc₁ : m₁.Custody G := by
    have hin : m.Custody (units [] ++ G) := hc
    exact hin.moves (h.moves hn hc.orderly)
  have hc₂ := custody_retired hc₁ hrt
  rw [hreads.handles_eq] at hc₂
  obtain ⟨_, _, _, hd, hnone⟩ := hends (ho₁.host.runtime rt hrt).unfinished
    (orderly_retired hrt hreads ho₁) hreads ha
  exact gone_of_does hd hc₂ hnone

/-- However the units of a startup come to their end, their modules are gone then, and they are in
nobody's hands. -/
theorem Life.gone {report : Option ShutdownReport} (h : Life n m report m') (hn : n.Lawful)
    (hc : m.Custody G) : m'.Custody G ∧ ∀ u ∈ m.declares, m'.Gone G u.handle := by
  have hc₀ := custody_afterDeclares hc
  cases h with
  | @initFailed e he =>
    have hend := initAll_end (X := []) (G := G) hn hc.orderly
    rw [he] at hend
    generalize (initAll n).after m = m' at hend ⊢
    cases hend with
    | refused hrefused hm =>
      have hin : m.Custody (units [] ++ G) := hc
      rw [hm, declares_of_refused hrefused]
      exact ⟨hin.moves (.skip _ m hc.orderly.host.modules), List.forall_mem_nil _⟩
    | failed _ hd hnone => exact gone_of_does hd hc₀ hnone
  | @pendingDropped r m₁ hp =>
    obtain ⟨_, _, hd, hs, ho₁⟩ := hp.does hn hc.orderly
    obtain ⟨hd', hnone⟩ := releaseAll_does (X := []) (G := G) ho₁ hs.reads.handles_eq
    exact gone_of_does (hd.trans hd') hc₀ hnone
  | @postInitFailed r m₁ e hp he =>
    obtain ⟨_, _, hd, hs, ho₁⟩ := hp.does hn hc.orderly
    have hend := postInitAll_end (X := []) (G := G) hn ho₁ hs
    rw [he] at hend
    generalize (postInitAll n r).after m₁ = m' at hend ⊢
    cases hend with
    | failed _ _ hd' hnone => exact gone_of_does (hd.trans hd') hc₀ hnone
  | @shutDown rt m₁ hr =>
    exact hr.gone hn hc fun hf ho hreads ha =>
      ⟨_, shutdown_ends (X := []) hn hf ho hreads fun v hv _ => ha v hv⟩
  | @dropped rt m₁ hr =>
    exact hr.gone hn hc fun hf ho hreads ha =>
      drop_ends (X := []) hn hf ho hreads fun v hv _ => ha v hv

theorem Running.owner_of_mem {e : Entry} (h : Running n m rt m₁) (hn : n.Lawful) (ho : m.Orderly G)
    (he : e ∈ rt.replacements.published.entries) :
    ∃ u ∈ m.declares, e.owner = some u.handle ∧ e.unit = u.name := by
  obtain ⟨_, _, _, _, _, hreads, _, _, ho₁, hrt⟩ := h.ready hn ho
  obtain ⟨r, m₂, hp, hr⟩ := h.exists_pending hn ho
  obtain ⟨v, hv, -, -, howner, hunit⟩ := (hp.wellFormed hn ho hr).owned e he
  rw [(ho₁.host.runtime rt hrt).published] at hv
  have hmem := List.mem_map_of_mem (f := fun u => (u.handle, u.option, u.state)) hv
  rw [hreads] at hmem
  obtain ⟨u, hu, heq⟩ := List.mem_map.1 hmem
  simp only [Prod.mk.injEq] at heq
  refine ⟨u, hu, by rw [howner, heq.1], ?_⟩
  rw [hunit, DeclaredUnit.name, DeclaredUnit.name, heq.2.1]

/-! ### Finalize hooks -/

/-- The machine at which a hook call of a unit begins. -/
def calling (point : EntryPoint) (r : Registry) (x : UnitHandle) (m : Machine) : Machine :=
  ({ m with trace := m.trace ++ [.entered point x] } : Machine).push
    { handle := x, vmVersion := m.host.settings.vmVersion, registry := r }

/-- The `finalize` hook of some unit begins while units are finalized in order: its code, and the
machine at which it begins. -/
inductive Finalizes (n : Nested) : Registry → ShutdownReport → List UnitHandle → Machine →
    Behaviour Status → Machine → Prop where
  | here {r : Registry} {report : ShutdownReport} {x : UnitHandle} {xs : List UnitHandle}
      {m : Machine} {u : DeclaredUnit} {hook : UnitHandle → Behaviour Status} :
      r.unit? x = some u → u.isActive = true →
      (m.host.modules.get? x).bind (·.finalize) = some hook →
      Finalizes n r report (x :: xs) m (hook x) (calling .finalize r x m)
  | later {r : Registry} {report : ShutdownReport} {x : UnitHandle} {xs : List UnitHandle}
      {m m' : Machine} {code : Behaviour Status} :
      Finalizes n ((finalizeUnit n r report x).result m).1
        ((finalizeUnit n r report x).result m).2 xs ((finalizeUnit n r report x).after m) code m' →
      Finalizes n r report (x :: xs) m code m'

/-- The `finalize` hook of some unit begins, for whatever reason the units are finalized: among
which units, its code, and the machine at which it begins. Some others are in hand before. -/
inductive FinalizeHook (n : Nested) (m : Machine) :
    List UnitHandle → List UnitHandle → Behaviour Status → Machine → Prop where
  /-- A runtime is taken out of use, to be shut down or dropped. -/
  | retired {rt : Runtime} {code : Behaviour Status} {m' : Machine} : m.host.runtime = some rt →
      Finalizes n rt.registry {} rt.registry.handles m.retired code m' →
      FinalizeHook n m [] rt.registry.handles code m'
  /-- A runtime is dropped since another one takes its place. -/
  | replaced {rt : Runtime} {r : Registry} {code : Behaviour Status} {m' : Machine} :
      m.host.runtime = some rt → m.host.Holds .active r →
      Finalizes n rt.registry {} rt.registry.handles (m.withHost (m.host.serve r)) code m' →
      FinalizeHook n m r.handles rt.registry.handles code m'
  /-- The second phase of a startup fails. -/
  | postInitFailed {r r' : Registry} {e : StartupError} {code : Behaviour Status} {m' : Machine} :
      m.host.Holds .activePending r → (postInitUnits n r r.handles).result m = (some e, r') →
      Finalizes n r' {} r'.handles ((postInitUnits n r r.handles).after m) code m' →
      FinalizeHook n m r.handles r.handles code m'
  /-- The first phase fails. -/
  | initFailed {r : Registry} {e : StartupError} {code : Behaviour Status} {m' : Machine} :
      (initUnits n { units := m.declares } m.declares).result m.afterDeclares = (some e, r) →
      Finalizes n r {} r.handles
        ((initUnits n { units := m.declares } m.declares).after m.afterDeclares) code m' →
      FinalizeHook n m [] (m.declares.map (·.handle)) code m'

variable {r : Registry} {us : List DeclaredUnit} {σ : UnitHandle → UnitState}
  {code : Behaviour Status} {report : ShutdownReport}

/-- While units are finalized all of them have their modules, if those do that wait with an active
one; and the registry of each hook has all of them. -/
theorem Finalizes.attached (hn : n.Lawful) (vs : List DeclaredUnit) (hvs : vs.Sublist us)
    (h : Finalizes n r report (vs.map (·.handle)) m code m')
    (ho : m.Orderly (us.map (·.handle) ++ (units [] ++ G))) (hr : r.Reads us σ)
    (ha : ∀ v ∈ us, σ v.handle = .active → ∀ w ∈ us, m.Attached w) :
    m'.Orderly (us.map (·.handle) ++ (units [] ++ G)) ∧ (∀ w ∈ us, m'.Attached w) ∧
      ∃ r' x m₁ σ', m' = calling .finalize r' x m₁ ∧ r'.Reads us σ' := by
  have hnodup := ho.nodup
  induction vs generalizing r σ m report with
  | nil => cases h
  | cons v vs ih =>
    have hv : v ∈ us := hvs.subset (by simp)
    have hvs' : vs.Sublist us := (List.sublist_cons_self v vs).trans hvs
    obtain ⟨w, hw, -, hstate⟩ := hr.unit? hnodup hv
    rw [List.map_cons] at h
    cases h with
    | @here _ _ _ _ _ u hook hu hactive hhook =>
      rw [hw, Option.some.injEq] at hu
      subst hu
      have hs : σ v.handle = .active := hstate ▸ of_decide_eq_true hactive
      refine ⟨?_, fun w hw => ha v hv hs w hw, r, v.handle, m, σ, rfl, hr⟩
      exact ho.of_same rfl { Host.Same.refl m.host with } rfl
    | later h =>
      by_cases hs : σ v.handle = .active
      · obtain ⟨es, _, _, -, hplain, hd, hr₁, -⟩ :=
          finalizeUnit_does (X := []) hn ho hr hv hs (ha v hv hs v hv) report
        refine ih hvs' h (hd.orderly ho) hr₁ fun _ _ _ w hw => ?_
        exact hd.attached (List.mem_map_of_mem hw) (ha v hv hs w hw) (hplain _)
      · rw [finalizeUnit_of_not_active fun u hu => by
          rw [hw, Option.some.injEq] at hu
          rwa [← hu, hstate]] at h
        exact ih hvs' h ho hr ha

theorem reads_declares (m : Machine) :
    Registry.Reads { units := m.declares } m.declares fun _ => .parsed := by
  obtain ⟨options, hdecl, -⟩ := m.exists_declares
  rw [hdecl]
  exact reads_declared rfl

theorem FinalizeHook.attached {xs ys : List UnitHandle} (h : FinalizeHook n m xs ys code m')
    (hn : n.Lawful) (ho : m.Orderly (xs ++ G)) :
    ∃ K, m'.Orderly (ys ++ K) ∧ ∀ y ∈ ys, (m'.host.modules.get? y).isSome := by
  have hloaded {us : List DeclaredUnit} (hall : ∀ w ∈ us, m'.Attached w) :
      ∀ y ∈ us.map (·.handle), (m'.host.modules.get? y).isSome := fun y hy => by
    obtain ⟨w, hw, rfl⟩ := List.mem_map.1 hy
    obtain ⟨mod, -, hmod⟩ := hall w hw
    rw [hmod]
    rfl
  cases h with
  | @retired rt _ _ hrt hf =>
    have hstands := Machine.stands_of_holds (ho.host.runtime rt hrt).registry
    obtain ⟨ho', hall, -⟩ := hf.attached hn rt.registry.units
      (List.Sublist.refl _) (orderly_retired hrt hstands.reads ho) hstands.reads
      fun _ _ _ => hstands.attached
    exact ⟨_, ho', hloaded hall⟩
  | @replaced rt r _ _ hrt hr hf =>
    have hstands := Machine.stands_of_holds (ho.host.runtime rt hrt).registry
    have hin : m.Orderly (units (ofUnits r.handles ++ []) ++ G) := by simpa using ho
    have hserved := ((UnitOp.serve_moves hrt hr).orderly hin).1.in_hand
    obtain ⟨ho', hall, -⟩ := hf.attached hn rt.registry.units
      (List.Sublist.refl _) hserved hstands.reads fun _ _ _ => hstands.attached
    exact ⟨_, ho', hloaded hall⟩
  | @postInitFailed r r' e _ _ hr hres hf =>
    have hstands := Machine.stands_of_holds hr
    obtain ⟨es, σ, _, hd, hcomp, hreads, -⟩ := postInitUnits_does (X := []) hn r.units
      (.all ho hstands.reads hstands.owned) hstands.attached
    have hres' : (postInitUnits n r (r.units.map (·.handle))).result m = (some e, r') := hres
    rw [hres'] at hreads
    rw [hreads.handles_eq] at hf
    obtain ⟨ho', hall, -⟩ := hf.attached hn r.units (List.Sublist.refl _) (hd.orderly ho) hreads
      fun _ _ _ w hw => hd.attached (List.mem_map_of_mem hw) (hstands.attached w hw) (hcomp.plain _)
    exact ⟨_, ho', hloaded hall⟩
  | @initFailed r e _ _ hres hf =>
    have ho₀ := (orderly_afterDeclares (X := []) ho (moves_afterDeclares [] m)).1
    obtain ⟨es, σ, hd, -, hreads, hnone, -⟩ := initUnits_does (X := []) hn m.declares
      (.all ho₀ (reads_declares m) fun _ he => by cases he) fun _ _ => by simp
    rw [hres] at hreads
    rw [hreads.handles_eq] at hf
    -- No unit is active yet, so that no hook begins.
    obtain ⟨ho', hall, -⟩ := hf.attached hn m.declares (List.Sublist.refl _) (hd.orderly ho₀) hreads
      fun v hv hactive => absurd hactive (hnone v hv)
    exact ⟨_, ho', hloaded hall⟩

end Startup

section Later

variable {n : Nested} {X : List Holding} {G : List UnitHandle} {m m' m'' : Machine} {e : Entry}
  {x : UnitHandle}

theorem amid_of_answers (hn : n.Lawful) (ops : List Op) (ho : m.Orderly (units X ++ G)) :
    Amid X m ((ops.mapM (Op.answer n)).after m) := .moves (answers_carries hn ops ho)

theorem amid_of_reaches (hn : n.Lawful) {α : Type} {code rest : Behaviour α}
    (h : n.Reaches code m rest m') (ho : m.Orderly (units X ++ G)) : Amid X m m' :=
  .moves (h.moves hn ho)

/-- Between operations and within them, the entries of all registries have units that are held. -/
theorem Machine.Orderly.owner_of_mem {K : List UnitHandle} (ho : m.Orderly K) {h : Host}
    (hh : h ∈ m.host :: m.waiting) {r : Registry} (hr : r ∈ h.registries) (he : e ∈ r.entries) :
    ∃ x ∈ h.held, e.owner = some x := by
  rcases List.mem_cons.1 hh with rfl | hh
  · exact ho.host.owner_of_mem hr he
  · exact (ho.waiting h hh).owner_of_mem hr he

theorem Machine.Orderly.find?_of_compiled {K : List UnitHandle} (ho : m.Orderly K) {rt : Runtime}
    {method : Method} {c : CompiledCall} (hrt : m.host.runtime = some rt)
    (hc : (method, c) ∈ rt.replacements.compiled) :
    rt.replacements.published.find? method = some c.plan.entry := by
  obtain ⟨e, func, he, -, rfl⟩ := (ho.host.runtime rt hrt).compiled method c hc
  exact he

/-- Once a unit has gone its entries are refused, whatever happens then. -/
theorem Amid.refuses (h : Amid X m m') (hc : m.Custody (units X ++ G)) (he : e.owner = some x)
    (hx : m.Gone (units X ++ G) x) : Dispatch.Refuses e m' := by
  obtain ⟨K, hc', hgone⟩ := h.custody hc
  refine Dispatch.refuses_of_unloaded ?_
  rw [hc'.orderly.host.isLoaded_eq he, (hgone x hx).module_eq_none hc']
  rfl

end Later

open Startup in
/-- No call reaches a released module. Whatever a program does, every entry of a registry has a
unit, and is loaded if and only if the module of that unit is. It is so while the unit is in use or
pending, and else at most in the hands of a startup or shutdown that is going on. Once the unit has
gone, by shutdown, drop or abort, every use of its entries is refused for good. While the `finalize`
hook of a unit runs, all entries of the units that are finalized with it are loaded. -/
theorem released_unreachable (d : Nat) :
    (∀ program, (Machine.ofProgram program).Custody []) ∧
    (∀ (X : List Holding) (G : List UnitHandle) (m : Machine), m.Custody (units X ++ G) →
      -- What may come later.
      ((∀ ops : List Op, Amid X m ((ops.mapM (Op.answer (.ofDepth d))).after m)) ∧
        (∀ (α : Type) (code rest : Behaviour α) (m' : Machine),
          (Nested.ofDepth d).Reaches code m rest m' → Amid X m m') ∧
        ∀ m', Amid X m m' → ∃ K, m'.Custody K) ∧
      -- Entries, and the calls that are compiled from them.
      ((∀ h ∈ m.host :: m.waiting, ∀ r ∈ h.registries, ∀ e ∈ r.entries,
          ∃ x ∈ h.held, e.owner = some x) ∧
        (∀ e x, e.owner = some x →
          (∀ h ∈ m.host :: m.waiting, (h.view e).loaded = (h.modules.get? x).isSome) ∧
          (x ∈ m.host.live → m.host.isLoaded e = true) ∧
          (m.host.isLoaded e = true → x ∈ (units X ++ G) ++ m.host.live)) ∧
        (∀ rt method c, m.host.runtime = some rt → (method, c) ∈ rt.replacements.compiled →
          rt.replacements.published.find? method = some c.plan.entry) ∧
        ∀ e c, (Dispatch.compileEntry (.ofDepth d) e).result m = .ok c → c.plan.entry = e) ∧
      -- Startups and their ends.
      ((∀ rt m', Running (.ofDepth d) m rt m' → ∀ e ∈ rt.replacements.published.entries,
          ∃ u ∈ m.declares, e.owner = some u.handle ∧ e.unit = u.name) ∧
        (∀ report m', Life (.ofDepth d) m report m' →
          m'.Custody (units X ++ G) ∧ ∀ u ∈ m.declares, m'.Gone (units X ++ G) u.handle) ∧
        ∀ e x m', e.owner = some x → m.Gone (units X ++ G) x → Amid X m m' →
          Dispatch.Refuses e m')) ∧
    ∀ (xs K : List UnitHandle) (m : Machine), m.Orderly (xs ++ K) →
      ∀ ys code m' m'', FinalizeHook (.ofDepth d) m xs ys code m' → Amid [] m' m'' →
        ∃ h, m''.hostAt m'.level = some h ∧
          ∀ e y, e.owner = some y → y ∈ ys → h.isLoaded e = true := by
  have hn := Nested.lawful_ofDepth d
  refine ⟨Machine.custody_ofProgram, fun X G m hc => ⟨⟨fun ops => amid_of_answers hn ops hc.orderly,
    fun α code rest m' hr => amid_of_reaches hn hr hc.orderly, fun m' hm => ?_⟩,
    ⟨fun h hh r hr e he => hc.orderly.owner_of_mem hh hr he, fun e x he => ⟨?_, ?_, ?_⟩,
      fun rt method c => hc.orderly.find?_of_compiled, fun e c => Dispatch.entry_of_compileEntry⟩,
    ⟨fun rt m' hr e => hr.owner_of_mem hn hc.orderly, fun report m' hl => hl.gone hn hc,
      fun e x m' he hx hm => hm.refuses hc he hx⟩⟩, fun xs K m ho ys code m' m'' hf hm => ?_⟩
  · obtain ⟨K, hc', -⟩ := hm.custody hc
    exact ⟨K, hc'⟩
  · intro h hh
    rcases List.mem_cons.1 hh with rfl | hh
    · exact hc.orderly.host.isLoaded_eq he
    · exact (hc.orderly.waiting h hh).isLoaded_eq he
  · intro hx
    rw [hc.orderly.host.isLoaded_eq he]
    exact hc.orderly.host.isSome_of_mem_live hx
  · intro hl
    rw [hc.orderly.host.isLoaded_eq he] at hl
    exact hc.tidy x hl
  · obtain ⟨K', ho', hall⟩ := hf.attached hn ho
    obtain ⟨h, hh, hmodules⟩ := hm.hostAt (X := []) ho'
    obtain ⟨K'', ho''⟩ := hm.orderly (X := []) ho'
    obtain ⟨next, hh'⟩ := ho''.hostAt hh
    refine ⟨h, hh, fun e y he hy => ?_⟩
    rw [hh'.isLoaded_eq he, hmodules y (List.mem_append_left _ hy)]
    exact hall y hy

/-- A program with a unit that has a provider. The entry is obtained while the unit is in use, and
its native function was not looked for when the unit is released. -/
def keepingEntry : Program where
  settings := { enabled := true, units := ["libA_1"] }
  source :=
    { load := fun _ => .ok
        { location := "libA_1"
          init := some fun _ => .done Status.ok
          exports := some (.done (some ⟨abiVersion, 1, some
            [Samples.Math.entry "demo/Math" "answer" "()I" "n_answer" (some ⟨none, "f"⟩)
              (some ⟨none, "provider"⟩) [5]]⟩)) }
      contains := fun _ => true }
  native := fun _ => none
  provider := fun _ => some fun _ data => .done data
  steps := [.units .start, .dispatch (.resolve ⟨"demo/Math", "answer", "()I"⟩ none (some "e")),
    .units .shutdown]

/-- The entry is not loaded any more, and its provider is asked nevertheless if the native function
is looked for. -/
theorem released_provider_asked :
    let m := (keepingEntry.steps.mapM (Op.answer (.ofDepth 0))).after (.ofProgram keepingEntry)
    ∃ e, m.host.entries.get? "e" = some e ∧ m.host.isLoaded e = false ∧
      m.trace.contains (.released 2) ∧
      (Dispatch.nativeFunc (.ofDepth 0) e).result m = some ⟨none, "f"⟩ ∧
      ((Dispatch.nativeFunc (.ofDepth 0) e).after m).trace =
        m.trace ++ [.asked e.id ⟨none, "provider"⟩ "n_answer" (some ⟨none, "f"⟩)] := by
  intro m
  have hasked : (m.host.entries.get? "e").any (fun e => m.host.isLoaded e = false ∧
      m.trace.contains (.released 2) ∧
      (Dispatch.nativeFunc (.ofDepth 0) e).result m = some ⟨none, "f"⟩ ∧
      ((Dispatch.nativeFunc (.ofDepth 0) e).after m).trace =
        m.trace ++ [.asked e.id ⟨none, "provider"⟩ "n_answer" (some ⟨none, "f"⟩)]) = true := by
    decide +kernel
  obtain ⟨e, he, hall⟩ := (Option.any_eq_true _ _).1 hasked
  exact ⟨e, he, of_decide_eq_true hall⟩

end AccelHost
