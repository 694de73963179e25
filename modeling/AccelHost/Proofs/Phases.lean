import AccelHost.Proofs.Shutdown

/-!
The two phases of startup. `Loading` describes what the first tells about units, `Completing` the
second: for each unit in the order of declaration, up to the first that fails.
-/
namespace AccelHost

open Holding

/-- What is told of a unit from its loading to the end of its `init` hook. -/
def begun (u : DeclaredUnit) (status : Status) (rejected : Option StartupError) :
    List TraceEvent :=
  [.attached u.handle, .advanced u.handle .parsed .loaded, .entered .init u.handle,
    .left .init u.handle status rejected]

def exported (u : DeclaredUnit) : List TraceEvent :=
  [.advanced u.handle .loaded .activePending, .entered .exports u.handle]

/-- What loading some units tells, and whether all succeed. -/
inductive Loading : List DeclaredUnit → List TraceEvent → Bool → Prop where
  | nil : Loading [] [] true
  | missing {u : DeclaredUnit} {us : List DeclaredUnit} : Loading (u :: us) [] false
  | failed {u : DeclaredUnit} {us : List DeclaredUnit} {status : Status}
      {rejected : Option StartupError} :
      Loading (u :: us)
        (begun u status rejected ++ [.advanced u.handle .loaded .initFailed]) false
  | rejected {u : DeclaredUnit} {us : List DeclaredUnit} :
      Loading (u :: us) (begun u Status.ok none ++ exported u) false
  | cons {u : DeclaredUnit} {us : List DeclaredUnit} {es : List TraceEvent} {done : Bool} :
      Loading us es done → Loading (u :: us) (begun u Status.ok none ++ exported u ++ es) done

/-- What post-initializing some units tells, which of them become active, and whether all do. -/
inductive Completing (s : Source) : List DeclaredUnit → List TraceEvent → List DeclaredUnit →
    Bool → Prop where
  | nil : Completing s [] [] [] true
  | bare {u : DeclaredUnit} {us active : List DeclaredUnit} {es : List TraceEvent} {done : Bool} :
      s.exports .postInit u = false → Completing s us es active done →
      Completing s (u :: us) (.advanced u.handle .activePending .active :: es) (u :: active) done
  | failed {u : DeclaredUnit} {us : List DeclaredUnit} {status : Status}
      {rejected : Option StartupError} :
      s.exports .postInit u = true →
      Completing s (u :: us)
        [.entered .postInit u.handle, .left .postInit u.handle status rejected,
          .advanced u.handle .activePending .postInitFailed] [] false
  | hook {u : DeclaredUnit} {us active : List DeclaredUnit} {es : List TraceEvent} {done : Bool} :
      s.exports .postInit u = true → Completing s us es active done →
      Completing s (u :: us)
        (.entered .postInit u.handle :: .left .postInit u.handle Status.ok none ::
          .advanced u.handle .activePending .active :: es) (u :: active) done

theorem Loading.released_not_mem {us : List DeclaredUnit} {es : List TraceEvent} {done : Bool}
    (h : Loading us es done) (x : UnitHandle) : .released x ∉ es := by
  induction h with
  | nil | missing => simp
  | failed => simp [begun]
  | rejected => simp [begun, exported]
  | cons _ ih => simpa [begun, exported] using ih

theorem Loading.attached_of_done {us : List DeclaredUnit} {es : List TraceEvent} {done : Bool}
    (h : Loading us es done) (hd : done = true) {u : DeclaredUnit} (hu : u ∈ us) :
    .attached u.handle ∈ es := by
  induction h with
  | nil => cases hu
  | missing | failed | rejected => cases hd
  | cons _ ih =>
    rcases List.mem_cons.1 hu with rfl | hu
    · simp [begun]
    · simp [ih hd hu]

theorem Completing.plain {s : Source} {us active : List DeclaredUnit} {es : List TraceEvent}
    {done : Bool} (h : Completing s us es active done) (x : UnitHandle) :
    .attached x ∉ es ∧ .released x ∉ es := by
  induction h with
  | nil => simp
  | bare _ _ ih => simpa using ih
  | failed => simp
  | hook _ _ ih => simpa using ih

namespace Startup

variable {n : Nested} {X : List Holding} {G : List UnitHandle} {us : List DeclaredUnit}
  {σ : UnitHandle → UnitState} {r : Registry} {m : Machine} {u : DeclaredUnit}

/-- A hook passes if it returns no failure and nothing that it registered was rejected. -/
theorem passed_of_error? {e : HookEnd} {point : EntryPoint} {unit : String}
    {failed : String → HookFault → StartupError} (h : e.error? point unit failed = none) :
    e.status = Status.ok ∧ e.session.failure = none := by
  unfold HookEnd.error? at h
  split at h
  · cases h
  · rename_i hfailure
    exact ⟨by simpa using h, hfailure⟩

inductive InitEnd (X : List Holding) (us : List DeclaredUnit) (σ : UnitHandle → UnitState)
    (m m' : Machine) (u : DeclaredUnit) : Option StartupError × Registry → Prop where
  | missing {e : StartupError} {r : Registry} : r.Reads us σ → m' = m →
      InitEnd X us σ m m' u (some e, r)
  | failed {e : StartupError} {r : Registry} {status : Status}
      {rejected : Option StartupError} :
      r.Reads us (Function.update σ u.handle .initFailed) → m'.Attached u →
      Does X (us.map (·.handle))
        (begun u status rejected ++ [.advanced u.handle .loaded .initFailed]) m m' →
      InitEnd X us σ m m' u (some e, r)
  | done {e : Option StartupError} {r : Registry} :
      r.Reads us (Function.update σ u.handle .activePending) → r.Owned → m'.Attached u →
      Does X (us.map (·.handle)) (begun u Status.ok none ++ exported u) m m' →
      InitEnd X us σ m m' u (e, r)

theorem load_eq_ok {src : Source} {mod : UnitModule} {init : UnitHandle → Behaviour Status}
    {exports : Behaviour (Option ExportTable)} (h : load src u = .ok (mod, init, exports)) :
    src.load u.option = .ok mod := by
  unfold load at h
  split at h
  · cases h
  · rename_i m hm
    split at h <;> cases h
    exact hm

theorem owned_modifyUnit {x : UnitHandle} {f : DeclaredUnit → DeclaredUnit}
    (hf : ∀ u, (f u).handle = u.handle) (h : r.Owned) : (r.modifyUnit x f).Owned := by
  unfold Registry.Owned
  rw [Registry.handles_modifyUnit hf]
  exact h

theorem begun_does (hn : n.Lawful) (ho : m.Orderly (us.map (·.handle) ++ (units X ++ G)))
    (hr : r.Reads us σ) (hown : r.Owned) (hu : u ∈ us) (hs : σ u.handle = .parsed)
    {mod : UnitModule} (hmod : m.host.source.load u.option = .ok mod)
    (init : UnitHandle → Behaviour Status) :
    let m₁ := (attach r u.handle mod).after m
    let r₁ := (attach r u.handle mod).result m
    let e := (callHook n .init init r₁ u.handle).result m₁
    let m₂ := (callHook n .init init r₁ u.handle).after m₁
    Does X (us.map (·.handle)) (begun u e.status e.session.failure) m m₂ ∧ m₂.Attached u ∧
      e.session.registry.Reads us (Function.update σ u.handle .loaded) ∧
      e.session.registry.Owned := by
  intro m₁ r₁ e m₂
  have hnodup := ho.nodup
  have hx : u.handle ∈ us.map (·.handle) := List.mem_map_of_mem hu
  obtain ⟨v, hv, _, hstate⟩ := hr.unit? hnodup hu
  obtain ⟨hd₁, hthere, hr₁⟩ := attach_does (X := X) (m := m) hx r mod
  simp only [hv, Option.map_some, Option.getD_some, hstate, hs] at hd₁
  obtain ⟨hd₂, hext⟩ := callHook_does (X := X) hn (hd₁.orderly ho) hx .init init r₁
  have hattached : m₁.Attached u := ⟨mod, by rw [hd₁.moves.around.source, hmod], hthere⟩
  have hreads : r₁.Reads us (Function.update σ u.handle .loaded) := by
    rw [show r₁ = _ from hr₁]
    exact hr.modifyUnit (fun _ => rfl) (fun _ => rfl) fun _ => rfl
  have howned : r₁.Owned := by
    rw [show r₁ = _ from hr₁]
    exact owned_modifyUnit (fun _ => rfl) hown
  exact ⟨hd₁.trans hd₂, hd₂.attached hx hattached (by simp), hreads.of_extends hext,
    howned.of_extends hext⟩

theorem initUnit_end (hn : n.Lawful) (ho : m.Orderly (us.map (·.handle) ++ (units X ++ G)))
    (hr : r.Reads us σ) (hown : r.Owned) (hu : u ∈ us) (hs : σ u.handle = .parsed) :
    InitEnd X us σ m ((initUnit n r u).after m) u ((initUnit n r u).result m) := by
  have hnodup := ho.nodup
  have hx : u.handle ∈ us.map (·.handle) := List.mem_map_of_mem hu
  unfold initUnit
  simp only [Work.result_bind, Work.after_bind, Work.result_host, Work.after_host]
  cases hload : load m.host.source u with
  | error e => exact .missing hr rfl
  | ok p =>
    obtain ⟨mod, init, exports⟩ := p
    obtain ⟨hd, hattached, hreads, howned⟩ :=
      begun_does (X := X) hn ho hr hown hu hs (load_eq_ok hload) init
    simp only [Work.result_bind, Work.after_bind]
    generalize (callHook n .init init ((attach r u.handle mod).result m) u.handle).result
      ((attach r u.handle mod).after m) = e at hd hreads howned ⊢
    generalize (callHook n .init init ((attach r u.handle mod).result m) u.handle).after
      ((attach r u.handle mod).after m) = m₂ at hd hattached ⊢
    cases herror : e.error? .init u.name .initFailed with
    | some error =>
      obtain ⟨hadv, hr₃⟩ := advance_reads (X := X) (m := m₂) hreads hnodup hu .initFailed
      rw [Function.update_self] at hadv
      rw [Function.update_idem] at hr₃
      exact .failed hr₃ (hadv.attached hx hattached (by simp)) (hd.trans hadv)
    | none =>
      obtain ⟨hstatus, hfailure⟩ := passed_of_error? herror
      rw [hstatus, hfailure] at hd
      obtain ⟨hadv, hr₃⟩ := advance_reads (X := X) (m := m₂) hreads hnodup hu .activePending
      rw [Function.update_self] at hadv
      rw [Function.update_idem] at hr₃
      have hasked : Does X (us.map (·.handle)) (exported u) m₂ _ :=
        hadv.trans (.event (e := .entered .exports u.handle) rfl hx)
      have hcode := runCode_does (X := X) hn (hasked.orderly (hd.orderly ho)) exports
      have hall := hd.trans (hasked.trans hcode)
      rw [List.append_nil] at hall
      have hattached' := hcode.attached hx (hasked.attached hx hattached (by simp [exported]))
        (by simp)
      have howned₃ : (e.session.registry.modifyUnit u.handle fun u =>
          { u with state := .activePending }).Owned := owned_modifyUnit (fun _ => rfl) howned
      simp only [Work.result_bind, Work.after_bind, result_advance] at hr₃ ⊢
      split
      · rename_i r₄ hreg
        obtain ⟨table, _, hreg⟩ := exists_of_bind_eq_ok hreg
        have hext := Registry.extends_of_registerEntries hreg
        exact .done (hr₃.of_extends hext) (howned₃.of_extends hext) hattached' hall
      · exact .done hr₃ howned₃ hattached' hall

/-- Some of the units in hand await a phase: a registry reads all that are in hand, and these are
still in the state in which the phase begins. -/
structure Awaits (K : List UnitHandle) (us vs : List DeclaredUnit) (state : UnitState)
    (σ : UnitHandle → UnitState) (r : Registry) (m : Machine) : Prop where
  sublist : vs.Sublist us
  orderly : m.Orderly (us.map (·.handle) ++ K)
  reads : r.Reads us σ
  owned : r.Owned
  states : ∀ v ∈ vs, σ v.handle = state

namespace Awaits

variable {K : List UnitHandle} {v : DeclaredUnit} {vs : List DeclaredUnit} {state next : UnitState}
  {r' : Registry} {m' : Machine} {es : List TraceEvent}

theorem all (ho : m.Orderly (us.map (·.handle) ++ K)) (hr : r.Reads us fun _ => state)
    (hown : r.Owned) : Awaits K us us state (fun _ => state) r m :=
  ⟨.refl _, ho, hr, hown, fun _ _ => rfl⟩

theorem nodup (h : Awaits K us vs state σ r m) : (us.map (·.handle)).Nodup := h.orderly.nodup

theorem head_mem (h : Awaits K us (v :: vs) state σ r m) : v ∈ us := h.sublist.subset (by simp)

theorem head_state (h : Awaits K us (v :: vs) state σ r m) : σ v.handle = state :=
  h.states v (by simp)

theorem head_notMem (h : Awaits K us (v :: vs) state σ r m) : v.handle ∉ vs.map (·.handle) :=
  (List.nodup_cons.1 ((h.sublist.map (·.handle)).nodup h.nodup)).1

theorem ne_head (h : Awaits K us (v :: vs) state σ r m) : ∀ w ∈ vs, w.handle ≠ v.handle :=
  fun w hw he => h.head_notMem (List.mem_map.2 ⟨w, hw, he⟩)

theorem tail (h : Awaits (units X ++ G) us (v :: vs) state σ r m)
    (hd : Does X (us.map (·.handle)) es m m')
    (hr : r'.Reads us (Function.update σ v.handle next)) (hown : r'.Owned) :
    Awaits (units X ++ G) us vs state (Function.update σ v.handle next) r' m' where
  sublist := (List.sublist_cons_self v vs).trans h.sublist
  orderly := hd.orderly h.orderly
  reads := hr
  owned := hown
  states w hw := by
    rw [Function.update_of_ne (h.ne_head w hw)]
    exact h.states w (by simp [hw])

/-- The units behind one that neither attaches nor releases any keep their modules. -/
theorem attached_tail (h : Awaits K us (v :: vs) state σ r m)
    (hd : Does X (us.map (·.handle)) es m m')
    (hplain : ∀ x, .attached x ∉ es ∧ .released x ∉ es) (ha : ∀ w ∈ v :: vs, m.Attached w) :
    ∀ w ∈ vs, m'.Attached w := fun w hw =>
  hd.attached (List.mem_map_of_mem (h.sublist.subset (by simp [hw]))) (ha w (by simp [hw]))
    (hplain _)

end Awaits

def Keeps (us : List DeclaredUnit) (es : List TraceEvent) (m : Machine) : Prop :=
  ∀ v ∈ us, .attached v.handle ∈ es → m.Attached v

theorem keeps_nil : Keeps us [] m := fun _ _ h => by cases h

theorem Keeps.append {es es' : List TraceEvent} {m' : Machine} (h : Keeps us es m)
    (hd : Does X (us.map (·.handle)) es' m m') (h' : Keeps us es' m')
    (hr : ∀ x, .released x ∉ es') : Keeps us (es ++ es') m' := by
  intro v hv ha
  by_cases hm : .attached v.handle ∈ es'
  · exact h' v hv hm
  · rcases List.mem_append.1 ha with ha | ha
    · exact hd.attached (List.mem_map_of_mem hv) (h v hv ha) ⟨hm, hr _⟩
    · exact absurd ha hm

theorem keeps_of_begun {es : List TraceEvent} (hnodup : (us.map (·.handle)).Nodup) (hu : u ∈ us)
    (ha : m.Attached u) (hes : ∀ x, .attached x ∈ es → x = u.handle) : Keeps us es m := by
  intro v hv hm
  rwa [List.inj_on_of_nodup_map hnodup hv hu (hes _ hm)]

theorem initUnits_does (hn : n.Lawful) (vs : List DeclaredUnit)
    (h : Awaits (units X ++ G) us vs .parsed σ r m) (hσ : ∀ v ∈ us, σ v.handle ≠ .active) :
    ∃ es σ', Does X (us.map (·.handle)) es m ((initUnits n r vs).after m) ∧
      Loading vs es ((initUnits n r vs).result m).1.isNone ∧
      ((initUnits n r vs).result m).2.Reads us σ' ∧
      (∀ v ∈ us, σ' v.handle ≠ .active) ∧ Keeps us es ((initUnits n r vs).after m) ∧
      (((initUnits n r vs).result m).1 = none → ((initUnits n r vs).result m).2.Owned ∧
        (∀ x ∉ vs.map (·.handle), σ' x = σ x) ∧ ∀ v ∈ vs, σ' v.handle = .activePending) := by
  induction vs generalizing r σ m with
  | nil =>
    exact ⟨[], σ, .refl X _ m, .nil, h.reads, hσ, keeps_nil,
      fun _ => ⟨h.owned, fun _ _ => rfl, by simp⟩⟩
  | cons v vs ih =>
    have hend := initUnit_end (X := X) hn h.orderly h.reads h.owned h.head_mem h.head_state
    have hσ' (next : UnitState) (hne : next ≠ .active) :
        ∀ w ∈ us, Function.update σ v.handle next w.handle ≠ .active := fun w hw => by
      by_cases he : w.handle = v.handle
      · rwa [he, Function.update_self]
      · rw [Function.update_of_ne he]
        exact hσ w hw
    simp only [initUnits, Work.result_bind, Work.after_bind]
    generalize (initUnit n r v).after m = m₁ at hend ⊢
    generalize (initUnit n r v).result m = res at hend ⊢
    cases hend with
    | missing hr₁ hm =>
      subst hm
      exact ⟨[], σ, .refl X _ _, .missing, hr₁, hσ, keeps_nil, by simp⟩
    | failed hr₁ ha hd =>
      exact ⟨_, _, hd, .failed, hr₁, hσ' _ (by simp),
        keeps_of_begun h.nodup h.head_mem ha (by simp [begun]), by simp⟩
    | @done e r₁ hr₁ hown₁ ha hd =>
      have hkeeps : Keeps us (begun v Status.ok none ++ exported v) m₁ :=
        keeps_of_begun h.nodup h.head_mem ha (by simp [begun, exported])
      cases e with
      | some e => exact ⟨_, _, hd, .rejected, hr₁, hσ' _ (by simp), hkeeps, by simp⟩
      | none =>
        obtain ⟨es, σ', hd', hload, hr', hact, hk, hdone⟩ :=
          ih (h.tail hd hr₁ hown₁) (hσ' _ (by simp))
        refine ⟨_, σ', hd.trans hd', .cons hload, hr', hact,
          hkeeps.append hd' hk hload.released_not_mem, fun hnone => ?_⟩
        obtain ⟨hown', hsame, hpending⟩ := hdone hnone
        refine ⟨hown', fun x hx => ?_, fun w hw => ?_⟩
        · simp only [List.map_cons, List.mem_cons, not_or] at hx
          rw [hsame x hx.2, Function.update_of_ne hx.1]
        · rcases List.mem_cons.1 hw with rfl | hw
          · rw [hsame _ h.head_notMem, Function.update_self]
          · exact hpending w hw

/-- How the post-initialization of one unit ends. -/
inductive PostInitEnd (X : List Holding) (us : List DeclaredUnit) (σ : UnitHandle → UnitState)
    (m m' : Machine) (u : DeclaredUnit) : Option StartupError × Registry → Prop where
  | active {r : Registry} {es : List TraceEvent} :
      (∀ vs es' active done, Completing m.host.source vs es' active done →
        Completing m.host.source (u :: vs) (es ++ es') (u :: active) done) →
      (∀ x, .attached x ∉ es ∧ .released x ∉ es) →
      r.Reads us (Function.update σ u.handle .active) → r.Owned →
      Does X (us.map (·.handle)) es m m' → PostInitEnd X us σ m m' u (none, r)
  | failed {e : StartupError} {r : Registry} {es : List TraceEvent} :
      (∀ vs, Completing m.host.source (u :: vs) es [] false) →
      r.Reads us (Function.update σ u.handle .postInitFailed) →
      Does X (us.map (·.handle)) es m m' → PostInitEnd X us σ m m' u (some e, r)

theorem postInitUnit_end (hn : n.Lawful)
    (ho : m.Orderly (us.map (·.handle) ++ (units X ++ G))) (hr : r.Reads us σ) (hown : r.Owned)
    (hu : u ∈ us) (hs : σ u.handle = .activePending) (ha : m.Attached u) :
    PostInitEnd X us σ m ((postInitUnit n r u.handle).after m) u
      ((postInitUnit n r u.handle).result m) := by
  have hnodup := ho.nodup
  have hx : u.handle ∈ us.map (·.handle) := List.mem_map_of_mem hu
  obtain ⟨mod, hl, hm⟩ := ha
  unfold postInitUnit
  simp only [hm, Work.result_bind, Work.after_bind, Work.result_host, Work.after_host,
    Option.bind_some]
  cases hf : mod.postInit with
  | none =>
    have hexports : m.host.source.exports .postInit u = false := by
      simp [SourceOf.exports, hl, ModuleOf.hook?, hf]
    obtain ⟨hd, hr₁⟩ := advance_reads (X := X) (m := m) hr hnodup hu .active
    rw [hs] at hd
    exact .active (fun vs es' active done h => .bare hexports h) (by simp) hr₁
      (owned_modifyUnit (fun _ => rfl) hown) hd
  | some hook =>
    have hexports : m.host.source.exports .postInit u = true := by
      simp [SourceOf.exports, hl, ModuleOf.hook?, hf]
    obtain ⟨hcall, hext⟩ := callHook_does (X := X) hn ho hx .postInit hook r
    simp only [Work.result_bind, Work.after_bind]
    generalize (callHook n .postInit hook r u.handle).result m = e at hcall hext ⊢
    generalize (callHook n .postInit hook r u.handle).after m = m₁ at hcall ⊢
    have hr₁ := hr.of_extends hext
    cases herror : e.error? .postInit _ .postInitFailed with
    | some error =>
      obtain ⟨hd, hr₂⟩ := advance_reads (X := X) (m := m₁) hr₁ hnodup hu .postInitFailed
      rw [hs] at hd
      exact .failed (fun vs => .failed hexports) hr₂ (hcall.trans hd)
    | none =>
      obtain ⟨hstatus, hfailure⟩ := passed_of_error? herror
      rw [hstatus, hfailure] at hcall
      obtain ⟨hd, hr₂⟩ := advance_reads (X := X) (m := m₁) hr₁ hnodup hu .active
      rw [hs] at hd
      exact .active (fun vs es' active done h => .hook hexports h) (by simp) hr₂
        (owned_modifyUnit (fun _ => rfl) (hown.of_extends hext)) (hcall.trans hd)

theorem postInitUnits_does (hn : n.Lawful) (vs : List DeclaredUnit)
    (h : Awaits (units X ++ G) us vs .activePending σ r m) (ha : ∀ v ∈ vs, m.Attached v) :
    ∃ es σ' active,
      Does X (us.map (·.handle)) es m ((postInitUnits n r (vs.map (·.handle))).after m) ∧
      Completing m.host.source vs es active
        ((postInitUnits n r (vs.map (·.handle))).result m).1.isNone ∧
      ((postInitUnits n r (vs.map (·.handle))).result m).2.Reads us σ' ∧
      (∀ x ∉ vs.map (·.handle), σ' x = σ x) ∧
      vs.filter (fun v => σ' v.handle = .active) = active ∧
      (((postInitUnits n r (vs.map (·.handle))).result m).1 = none →
        ((postInitUnits n r (vs.map (·.handle))).result m).2.Owned) := by
  induction vs generalizing r σ m with
  | nil => exact ⟨[], σ, [], .refl X _ m, .nil, h.reads, fun _ _ => rfl, rfl, fun _ => h.owned⟩
  | cons v vs ih =>
    have hend := postInitUnit_end (X := X) hn h.orderly h.reads h.owned h.head_mem h.head_state
      (ha v (by simp))
    simp only [List.map_cons, postInitUnits, Work.result_bind, Work.after_bind]
    generalize (postInitUnit n r v.handle).after m = m₁ at hend ⊢
    generalize (postInitUnit n r v.handle).result m = res at hend ⊢
    cases hend with
    | @failed e r₁ es hfail hr₁ hd =>
      refine ⟨es, _, [], hd, hfail vs, hr₁, fun x hx => ?_, ?_, by simp⟩
      · simp only [List.mem_cons, not_or] at hx
        rw [Function.update_of_ne hx.1]
      · refine List.filter_eq_nil_iff.2 fun w hw => ?_
        rcases List.mem_cons.1 hw with rfl | hw
        · simp
        · rw [Function.update_of_ne (h.ne_head w hw), h.states w (by simp [hw])]
          simp
    | @active r₁ es hcons hplain hr₁ hown₁ hd =>
      obtain ⟨es', σ', active, hd', hcomp, hr', hsame, hfilter, hown'⟩ :=
        ih (h.tail hd hr₁ hown₁) (h.attached_tail hd hplain ha)
      rw [hd.moves.around.source] at hcomp
      refine ⟨es ++ es', σ', v :: active, hd.trans hd', hcons _ _ _ _ hcomp, hr',
        fun x hx => ?_, ?_, hown'⟩
      · simp only [List.mem_cons, not_or] at hx
        rw [hsame x hx.2, Function.update_of_ne hx.1]
      · have hact : σ' v.handle = .active := by rw [hsame _ h.head_notMem, Function.update_self]
        rw [List.filter_cons_of_pos (by simpa using hact), hfilter]

/-- A unit that passes the first phase leaves those behind it to await it. -/
theorem Awaits.next {v : DeclaredUnit} {vs : List DeclaredUnit} {r' : Registry}
    (h : Awaits (units X ++ G) us (v :: vs) .parsed σ r m) (hn : n.Lawful)
    (hres : (initUnit n r v).result m = (none, r')) :
    Awaits (units X ++ G) us vs .parsed (Function.update σ v.handle .activePending) r'
        ((initUnit n r v).after m) ∧
      Around m ((initUnit n r v).after m) := by
  have hend := initUnit_end (X := X) hn h.orderly h.reads h.owned h.head_mem h.head_state
  rw [hres] at hend
  cases hend with
  | done hr₁ hown₁ _ hd => exact ⟨h.tail hd hr₁ hown₁, hd.moves.around⟩

theorem Awaits.nextPostInit {v : DeclaredUnit} {vs : List DeclaredUnit} {r' : Registry}
    (h : Awaits (units X ++ G) us (v :: vs) .activePending σ r m) (hn : n.Lawful)
    (ha : ∀ w ∈ v :: vs, m.Attached w)
    (hres : (postInitUnit n r v.handle).result m = (none, r')) :
    Awaits (units X ++ G) us vs .activePending (Function.update σ v.handle .active) r'
        ((postInitUnit n r v.handle).after m) ∧
      (∀ w ∈ vs, ((postInitUnit n r v.handle).after m).Attached w) ∧
      Around m ((postInitUnit n r v.handle).after m) := by
  have hend := postInitUnit_end (X := X) hn h.orderly h.reads h.owned h.head_mem h.head_state
    (ha v (by simp))
  rw [hres] at hend
  cases hend with
  | active _ hplain hr₁ hown₁ hd =>
    exact ⟨h.tail hd hr₁ hown₁, h.attached_tail hd hplain ha, hd.moves.around⟩

end Startup

end AccelHost
