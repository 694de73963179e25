import AccelHost.Proofs.StartupMoves
import Mathlib.Logic.Function.Basic

/-!
Shutdown: the active units are finalized in the order of their declaration, and then every module
goes. What is told about the units is described by `Finalizing`, whatever the hooks do.
-/
namespace AccelHost

open Holding

def SourceOf.exports (s : Source) (point : EntryPoint) (u : DeclaredUnit) : Bool :=
  match s.load u.option with
  | .ok m => (m.hook? point).isSome
  | .error _ => false

/-- What finalizing some active units tells, and how it is reported: the names of the units, and the
messages of those that failed. -/
inductive Finalizing (s : Source) : List DeclaredUnit → List TraceEvent → List String →
    List (String × String) → Prop where
  | nil : Finalizing s [] [] [] []
  | bare {u : DeclaredUnit} {us : List DeclaredUnit} {es : List TraceEvent} {names : List String}
      {failures : List (String × String)} :
      s.exports .finalize u = false → Finalizing s us es names failures →
      Finalizing s (u :: us) (.advanced u.handle .active .finalized :: es) (u.name :: names)
        failures
  | hook {u : DeclaredUnit} {us : List DeclaredUnit} {es : List TraceEvent} {names : List String}
      {failures : List (String × String)} {status : Status} {rejected : Option StartupError}
      {message : Option String} :
      s.exports .finalize u = true → (message = none ↔ status = Status.ok ∧ rejected = none) →
      Finalizing s us es names failures →
      Finalizing s (u :: us)
        (.entered .finalize u.handle :: .left .finalize u.handle status rejected ::
          .advanced u.handle .active .finalized :: es)
        (u.name :: names) ((message.toList.map fun text => (u.name, text)) ++ failures)

theorem Finalizing.plain {s : Source} {us : List DeclaredUnit} {es : List TraceEvent}
    {names : List String} {failures : List (String × String)}
    (h : Finalizing s us es names failures) (x : UnitHandle) :
    .attached x ∉ es ∧ .released x ∉ es := by
  induction h with
  | nil => simp
  | bare _ _ ih => simpa using ih
  | hook _ _ _ ih => simpa using ih

/-- A unit has the module that its source loads for it. -/
def Machine.Attached (m : Machine) (u : DeclaredUnit) : Prop :=
  ∃ mod, m.host.source.load u.option = .ok mod ∧ m.host.modules.get? u.handle = some mod

/-- The units of a registry are some units, in the states that are given by their handles. -/
def Registry.Reads (r : Registry) (us : List DeclaredUnit) (σ : UnitHandle → UnitState) : Prop :=
  r.units.map (fun u => (u.handle, u.option, u.state)) =
    us.map fun u => (u.handle, u.option, σ u.handle)

namespace Registry.Reads

variable {r r' : Registry} {us : List DeclaredUnit} {σ : UnitHandle → UnitState}
  {x : UnitHandle}

theorem handles_eq (h : r.Reads us σ) : r.handles = us.map (·.handle) := by
  simpa [handles, Function.comp_def] using congrArg (List.map (·.1)) h

theorem of_extends (h : r.Reads us σ) (he : r.Extends r') : r'.Reads us σ := by
  have := congrArg (List.map fun u => (u.handle, u.option, u.state)) he.units
  simp only [List.map_map, Function.comp_def] at this
  rw [Reads, this]
  exact h

theorem modifyUnit {f : DeclaredUnit → DeclaredUnit} {next : UnitState} (h : r.Reads us σ)
    (hh : ∀ u, (f u).handle = u.handle) (ho : ∀ u, (f u).option = u.option)
    (hs : ∀ u, (f u).state = next) :
    (r.modifyUnit x f).Reads us (Function.update σ x next) := by
  have hmap := congrArg (List.map fun p : UnitHandle × UnitOption × UnitState =>
    (p.1, p.2.1, Function.update (fun _ => p.2.2) x next p.1)) h
  simp only [List.map_map, Function.comp_def] at hmap
  unfold Reads Registry.modifyUnit
  simp only [List.map_map, Function.comp_def]
  refine Eq.trans (List.map_congr_left fun u _ => ?_)
    (hmap.trans (List.map_congr_left fun u _ => ?_))
  · by_cases hu : u.handle = x <;> simp [hu, hh, ho, hs]
  · by_cases hu : u.handle = x <;> simp [hu]

theorem unit? (h : r.Reads us σ) (hn : (us.map (·.handle)).Nodup) {u : DeclaredUnit}
    (hu : u ∈ us) :
    ∃ v, r.unit? u.handle = some v ∧ v.option = u.option ∧ v.state = σ u.handle := by
  unfold Reads at h
  unfold Registry.unit?
  generalize r.units = vs at h
  induction us generalizing vs with
  | nil => cases hu
  | cons w ws ih =>
    cases vs with
    | nil => cases h
    | cons v vs =>
      simp only [List.map_cons, List.cons.injEq, Prod.mk.injEq] at h
      obtain ⟨⟨hh, ho, hs⟩, hrest⟩ := h
      obtain ⟨hw, hn⟩ := List.nodup_cons.1 hn
      rcases List.mem_cons.1 hu with rfl | hu
      · exact ⟨v, by simp [hh], ho, hs⟩
      · have hne : w.handle ≠ u.handle := fun he => hw (List.mem_map.2 ⟨u, hu, he.symm⟩)
        simpa [List.find?_cons, hh, hne] using ih hn hu vs hrest

end Registry.Reads

theorem Does.attached {X : List Holding} {xs : List UnitHandle} {es : List TraceEvent}
    {m m' : Machine} {u : DeclaredUnit} (hd : Does X xs es m m')
    (hu : u.handle ∈ xs) (ha : m.Attached u)
    (hes : .attached u.handle ∉ es ∧ .released u.handle ∉ es) : m'.Attached u := by
  obtain ⟨mod, hl, hm⟩ := ha
  exact ⟨mod, by rw [hd.moves.around.source, hl], by rw [hd.kept _ hu hes.1 hes.2, hm]⟩

namespace Startup

theorem HookEnd.message?_eq_none_iff {e : HookEnd} {point : EntryPoint} :
    e.message? point = none ↔ e.status = Status.ok ∧ e.session.failure = none := by
  unfold message?
  cases e.session.failure with
  | some failure => simp
  | none => by_cases h : e.status = Status.ok <;> simp [h]

variable {n : Nested} {X : List Holding} {G : List UnitHandle} {us : List DeclaredUnit}
  {σ : UnitHandle → UnitState} {r : Registry} {m : Machine}

theorem advance_reads (hr : r.Reads us σ) (hnodup : (us.map (·.handle)).Nodup)
    {u : DeclaredUnit} (hu : u ∈ us) (next : UnitState) :
    Does X (us.map (·.handle)) [.advanced u.handle (σ u.handle) next] m
        ((advance r u.handle next).after m) ∧
      ((advance r u.handle next).result m).Reads us (Function.update σ u.handle next) := by
  obtain ⟨v, hv, _, hs⟩ := hr.unit? hnodup hu
  have hx : u.handle ∈ us.map (·.handle) := List.mem_map_of_mem hu
  have hd := advance_does (X := X) (m := m) hx r next
  simp only [hv, Option.map_some, Option.getD_some, hs] at hd
  exact ⟨hd, hr.modifyUnit (fun _ => rfl) (fun _ => rfl) fun _ => rfl⟩

theorem finalizeUnit_does (hn : n.Lawful)
    (ho : m.Orderly (us.map (·.handle) ++ (units X ++ G))) (hr : r.Reads us σ)
    {u : DeclaredUnit} (hu : u ∈ us) (hs : σ u.handle = .active) (ha : m.Attached u)
    (report : ShutdownReport) :
    ∃ es names failures,
      (∀ vs es' names' failures', Finalizing m.host.source vs es' names' failures' →
        Finalizing m.host.source (u :: vs) (es ++ es') (names ++ names')
          (failures ++ failures')) ∧
      (∀ x, .attached x ∉ es ∧ .released x ∉ es) ∧
      Does X (us.map (·.handle)) es m ((finalizeUnit n r report u.handle).after m) ∧
      ((finalizeUnit n r report u.handle).result m).1.Reads us
        (Function.update σ u.handle .finalized) ∧
      ((finalizeUnit n r report u.handle).result m).2 =
        ⟨report.finalized ++ names, report.failures ++ failures⟩ := by
  have hnodup := ho.nodup
  have hx : u.handle ∈ us.map (·.handle) := List.mem_map_of_mem hu
  obtain ⟨v, hv, hoption, hstate⟩ := hr.unit? hnodup hu
  have hname : v.name = u.name := congrArg UnitOption.displayName hoption
  obtain ⟨mod, hl, hm⟩ := ha
  have hactive : v.isActive = true := by simp [DeclaredUnit.isActive, hstate, hs]
  unfold finalizeUnit
  simp only [hv, hactive, hm, hname, Work.result_bind, Work.after_bind, Work.result_host,
    Work.after_host, Option.bind_some, Bool.not_true, Bool.false_eq_true, ↓reduceIte]
  cases hf : mod.finalize with
  | none =>
    have hexports : m.host.source.exports .finalize u = false := by
      simp [SourceOf.exports, hl, ModuleOf.hook?, hf]
    obtain ⟨hd, hr₁⟩ := advance_reads (X := X) (m := m) hr hnodup hu .finalized
    rw [hs] at hd
    exact ⟨_, [u.name], [], fun vs es' names' failures' h => .bare hexports h, by simp, hd, hr₁,
      rfl⟩
  | some hook =>
    have hexports : m.host.source.exports .finalize u = true := by
      simp [SourceOf.exports, hl, ModuleOf.hook?, hf]
    obtain ⟨hcall, hext⟩ := callHook_does (X := X) hn ho hx .finalize hook r
    simp only [Work.result_bind, Work.after_bind]
    generalize (callHook n .finalize hook r u.handle).result m = e at hcall hext ⊢
    generalize (callHook n .finalize hook r u.handle).after m = m₁ at hcall ⊢
    obtain ⟨hd, hr₁⟩ :=
      advance_reads (X := X) (m := m₁) (hr.of_extends hext) hnodup hu .finalized
    rw [hs] at hd
    exact ⟨_, [u.name], (e.message? .finalize).toList.map fun text => (u.name, text),
      fun vs es' names' failures' h => .hook hexports HookEnd.message?_eq_none_iff h, by simp,
      hcall.trans hd, hr₁, rfl⟩

theorem finalizeUnit_of_not_active {x : UnitHandle} {report : ShutdownReport}
    (h : ∀ v, r.unit? x = some v → v.state ≠ .active) :
    finalizeUnit n r report x = pure (r, report) := by
  unfold finalizeUnit
  split
  · rfl
  · rename_i v hv
    simp [DeclaredUnit.isActive, h v hv]

/-- Finalizing some units, of which only the active ones matter. -/
theorem finalizeUnits_does (hn : n.Lawful)
    (ho : m.Orderly (us.map (·.handle) ++ (units X ++ G))) (hr : r.Reads us σ)
    (vs : List DeclaredUnit) (hvs : vs.Sublist us)
    (ha : ∀ v ∈ vs, σ v.handle = .active → m.Attached v) (report : ShutdownReport) :
    ∃ es names failures,
      Finalizing m.host.source (vs.filter fun v => σ v.handle = .active) es names failures ∧
      Does X (us.map (·.handle)) es m
        ((finalizeUnits n r report (vs.map (·.handle))).after m) ∧
      ((finalizeUnits n r report (vs.map (·.handle))).result m).1.handles =
        us.map (·.handle) ∧
      ((finalizeUnits n r report (vs.map (·.handle))).result m).2 =
        ⟨report.finalized ++ names, report.failures ++ failures⟩ := by
  have hnodup := ho.nodup
  induction vs generalizing r σ m report with
  | nil => exact ⟨[], [], [], .nil, .refl X _ m, hr.handles_eq, by simp [finalizeUnits]⟩
  | cons v vs ih =>
    have hv : v ∈ us := hvs.subset (by simp)
    have hvs' : vs.Sublist us := (List.sublist_cons_self v vs).trans hvs
    have hne : ∀ w ∈ vs, w.handle ≠ v.handle := by
      have := (hvs.map (·.handle)).nodup hnodup
      rw [List.map_cons, List.nodup_cons] at this
      exact fun w hw he => this.1 (he ▸ List.mem_map_of_mem hw)
    simp only [List.map_cons, finalizeUnits, Work.result_bind, Work.after_bind]
    by_cases hs : σ v.handle = .active
    · obtain ⟨es, names, failures, hcons, hplain, hd, hr₁, hrep⟩ :=
        finalizeUnit_does (X := X) hn ho hr hv hs (ha v (by simp) hs) report
      generalize (finalizeUnit n r report v.handle).after m = m₁ at hd ⊢
      generalize (finalizeUnit n r report v.handle).result m = res at hr₁ hrep ⊢
      obtain ⟨r₁, report₁⟩ := res
      cases hrep
      obtain ⟨es', names', failures', hfin, hd', hh, hrep'⟩ := ih (hd.orderly ho) hr₁ hvs'
        (fun w hw hsw => by
          rw [Function.update_of_ne (hne w hw)] at hsw
          exact hd.attached (List.mem_map_of_mem (hvs'.subset hw)) (ha w (by simp [hw]) hsw)
            (hplain _))
        ⟨report.finalized ++ names, report.failures ++ failures⟩
      refine ⟨es ++ es', names ++ names', failures ++ failures', ?_, hd.trans hd', hh, ?_⟩
      · have hsame : vs.filter (fun w =>
            Function.update σ v.handle .finalized w.handle = UnitState.active) =
            vs.filter fun w => σ w.handle = .active :=
          List.filter_congr fun w hw => by rw [Function.update_of_ne (hne w hw)]
        rw [hsame, hd.moves.around.source] at hfin
        rw [List.filter_cons_of_pos (by simpa using hs)]
        exact hcons _ _ _ _ hfin
      · rw [hrep', List.append_assoc, List.append_assoc]
    · rw [finalizeUnit_of_not_active fun w hw => by
        obtain ⟨w', hw', _, hst⟩ := hr.unit? hnodup hv
        rw [hw] at hw'
        cases hw'
        rwa [hst]]
      simp only [Work.result_pure, Work.after_pure]
      rw [List.filter_cons_of_neg (by simpa using hs)]
      exact ih ho hr hvs' (fun w hw => ha w (by simp [hw])) report

def present (m : Machine) (xs : List UnitHandle) : List UnitHandle :=
  xs.filter fun x => (m.host.modules.get? x).isSome

theorem releaseUnits_does {xs : List UnitHandle} (hnodup : xs.Nodup) (vs : List DeclaredUnit)
    (hvs : (vs.map (·.handle)).Sublist xs) :
    Does X xs ((present m (vs.map (·.handle))).map .released) m
        ((vs.forM fun u => release u.handle : Work Unit).after m) ∧
      ∀ v ∈ vs, ((vs.forM fun u => release u.handle : Work Unit).after m).host.modules.get?
        v.handle = none := by
  induction vs generalizing m with
  | nil => exact ⟨.refl X xs m, by simp⟩
  | cons v vs ih =>
    have hv : v.handle ∈ xs := hvs.subset (by simp)
    obtain ⟨hnot, _⟩ := List.nodup_cons.1 (hvs.nodup hnodup)
    obtain ⟨hd, hnone⟩ := release_does (X := X) (m := m) hv
    obtain ⟨hd', hnone'⟩ := ih (m := (release v.handle).after m)
      ((List.sublist_cons_self _ _).trans hvs)
    have hstep : ((v :: vs).forM fun u => release u.handle : Work Unit).after m =
      (vs.forM fun u => release u.handle : Work Unit).after ((release v.handle).after m) := rfl
    rw [hstep]
    have hkept : ∀ w ∈ vs, ((release v.handle).after m).host.modules.get? w.handle =
        m.host.modules.get? w.handle := fun w hw => by
      refine hd.kept _ (hvs.subset (by simp [List.mem_map_of_mem hw])) ?_ ?_
      · split <;> simp
      · have hne : w.handle ≠ v.handle := fun he => hnot (List.mem_map.2 ⟨w, hw, he⟩)
        split <;> simp [hne]
    have hsame : present ((release v.handle).after m) (vs.map (·.handle)) =
        present m (vs.map (·.handle)) := by
      refine List.filter_congr fun x hx => ?_
      obtain ⟨w, hw, rfl⟩ := List.mem_map.1 hx
      rw [hkept w hw]
    refine ⟨?_, fun w hw => ?_⟩
    · rw [hsame] at hd'
      have hall := hd.trans hd'
      by_cases hp : (m.host.modules.get? v.handle).isSome = true
      · simpa [present, hp] using hall
      · simpa [present, hp] using hall
    · rcases List.mem_cons.1 hw with rfl | hw
      · have hr : TraceEvent.released w.handle ∉
            (present m (vs.map (·.handle))).map TraceEvent.released := fun hm => by
          obtain ⟨x, hx, he⟩ := List.mem_map.1 hm
          cases he
          exact hnot (List.mem_of_mem_filter hx)
        rw [hd'.kept _ hv (by simp) (hsame ▸ hr), hnone]
      · exact hnone' w hw

theorem releaseAll_does (ho : m.Orderly (us.map (·.handle) ++ (units X ++ G)))
    (hh : r.handles = us.map (·.handle)) :
    Does X (us.map (·.handle)) ((present m (us.map (·.handle))).map .released) m
        ((releaseAll r).after m) ∧
      ∀ x ∈ us.map (·.handle), ((releaseAll r).after m).host.modules.get? x = none := by
  have hnodup := ho.nodup
  have hmap : r.units.map (·.handle) = us.map (·.handle) := hh
  obtain ⟨hd, hnone⟩ := releaseUnits_does (X := X) (m := m) hnodup r.units (by rw [hmap])
  refine ⟨by rw [← hmap]; exact hmap ▸ hd, fun x hx => ?_⟩
  rw [← hmap] at hx
  obtain ⟨v, hv, rfl⟩ := List.mem_map.1 hx
  exact hnone v hv

/-- Modules that are gone are not released again. -/
theorem releaseAll_again (ho : m.Orderly (us.map (·.handle) ++ (units X ++ G)))
    (hh : r.handles = us.map (·.handle))
    (hnone : ∀ x ∈ us.map (·.handle), m.host.modules.get? x = none) :
    Does X (us.map (·.handle)) [] m ((releaseAll r).after m) := by
  have hp : present m (us.map (·.handle)) = [] :=
    List.filter_eq_nil_iff.2 fun x hx => by simp [hnone x hx]
  simpa only [hp, List.map_nil] using (releaseAll_does ho hh).1

/-- The end of some units: the active ones are finalized, then the modules that are there go. -/
def Ends (X : List Holding) (us : List DeclaredUnit) (σ : UnitHandle → UnitState)
    (m m' : Machine) (report : ShutdownReport) : Prop :=
  ∃ es, Finalizing m.host.source (us.filter fun v => σ v.handle = .active) es report.finalized
      report.failures ∧
    Does X (us.map (·.handle)) (es ++ (present m (us.map (·.handle))).map .released) m m' ∧
    ∀ x ∈ us.map (·.handle), m'.host.modules.get? x = none

theorem finalizeAll_ends (hn : n.Lawful)
    (ho : m.Orderly (us.map (·.handle) ++ (units X ++ G))) (hr : r.Reads us σ)
    (ha : ∀ v ∈ us, σ v.handle = .active → m.Attached v) :
    Ends X us σ m ((finalizeAll n r).after m) ((finalizeAll n r).result m).2 ∧
      ((finalizeAll n r).result m).1.handles = us.map (·.handle) := by
  have hmap : r.units.map (·.handle) = us.map (·.handle) := hr.handles_eq
  obtain ⟨es, names, failures, hfin, hd, hh, hrep⟩ :=
    finalizeUnits_does (X := X) hn ho hr us (List.Sublist.refl us) ha {}
  unfold finalizeAll
  simp only [hmap, Work.result_bind, Work.after_bind]
  generalize (finalizeUnits n r {} (us.map (·.handle))).after m = m₁ at hd ⊢
  generalize (finalizeUnits n r {} (us.map (·.handle))).result m = res at hh hrep ⊢
  obtain ⟨r₁, report⟩ := res
  cases hrep
  obtain ⟨hd', hnone⟩ := releaseAll_does (X := X) (r := r₁) (hd.orderly ho) hh
  have hsame : present m₁ (us.map (·.handle)) = present m (us.map (·.handle)) :=
    List.filter_congr fun x hx => by
      rw [hd.kept x hx (hfin.plain x).1 (hfin.plain x).2]
  rw [hsame] at hd'
  exact ⟨⟨es, hfin, hd.trans hd', hnone⟩, hh⟩

theorem Ends.releaseAll {m' : Machine} {report : ShutdownReport} (h : Ends X us σ m m' report)
    (ho : m.Orderly (us.map (·.handle) ++ (units X ++ G))) (hh : r.handles = us.map (·.handle)) :
    Ends X us σ m ((releaseAll r).after m') report := by
  obtain ⟨es, hfin, hd, hnone⟩ := h
  have hd' := releaseAll_again (hd.orderly ho) hh hnone
  refine ⟨es, hfin, by simpa using hd.trans hd', fun x hx => ?_⟩
  rw [hd'.kept x hx (by simp) (by simp), hnone x hx]

theorem abort_ends (hn : n.Lawful)
    (ho : m.Orderly (us.map (·.handle) ++ (units X ++ G))) (hr : r.Reads us σ)
    (ha : ∀ v ∈ us, σ v.handle = .active → m.Attached v) :
    ∃ report, Ends X us σ m ((abort n r).after m) report := by
  obtain ⟨hends, hh⟩ := finalizeAll_ends (X := X) hn ho hr ha
  exact ⟨_, hends.releaseAll ho hh⟩

/-- A runtime whose units were not finalized yet, and that is dropped. -/
theorem drop_ends (hn : n.Lawful) {rt : Runtime} (hf : rt.finalized = false)
    (ho : m.Orderly (us.map (·.handle) ++ (units X ++ G))) (hr : rt.registry.Reads us σ)
    (ha : ∀ v ∈ us, σ v.handle = .active → m.Attached v) :
    ∃ report, Ends X us σ m ((drop n rt).after m) report := by
  obtain ⟨hends, hh⟩ := finalizeAll_ends (X := X) hn ho hr ha
  unfold drop finalize
  simp only [hf, Bool.false_eq_true, ↓reduceIte]
  exact ⟨_, hends.releaseAll ho hh⟩

/-- A runtime that is shut down is finalized once, although it is dropped then. -/
theorem shutdown_ends (hn : n.Lawful) {rt : Runtime} (hf : rt.finalized = false)
    (ho : m.Orderly (us.map (·.handle) ++ (units X ++ G))) (hr : rt.registry.Reads us σ)
    (ha : ∀ v ∈ us, σ v.handle = .active → m.Attached v) :
    Ends X us σ m ((shutdown n rt).after m) ((shutdown n rt).result m) := by
  obtain ⟨hends, hh⟩ := finalizeAll_ends (X := X) hn ho hr ha
  unfold shutdown drop finalize
  simp only [hf, Bool.false_eq_true, ↓reduceIte]
  exact hends.releaseAll ho hh

end Startup

end AccelHost
