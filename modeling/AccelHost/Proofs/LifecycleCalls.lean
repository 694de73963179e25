import AccelHost.Proofs.HookFailures
import AccelHost.Proofs.Unloading

/-!
The hook calls of the units that a startup declares, from `init` to `finalize`. Between the phases
the host may do anything, also within hooks and programs. The registry of every hook call has its
unit with the option that was declared.
-/
namespace AccelHost

open Holding

/-- The registry has a unit, with its option, whatever has become of it since. -/
def Registry.Knows (r : Registry) (u : DeclaredUnit) : Prop :=
  ∃ v, r.unit? u.handle = some v ∧ v.option = u.option

namespace Startup

variable {n : Nested} {G : List UnitHandle} {m m₁ m' : Machine} {us : List DeclaredUnit}
  {σ : UnitHandle → UnitState} {r r₁ : Registry} {rt : Runtime} {u : DeclaredUnit}
  {point : EntryPoint} {hook : UnitHandle → Behaviour Status}

/-! ### The calls -/

/-- The units of a startup from `m` wait at `m₁` for the second phase, or are about to go through
it. -/
structure Suspended (n : Nested) (m : Machine) (r : Registry) (m₁ : Machine) : Prop where
  initialized : (initAll n).result m = .ok r
  orderly : ∃ K, m₁.Orderly (r.handles ++ K)
  holds : m₁.host.Holds .activePending r

/-- The runtime of a startup from `m` is in use at `m₁`. -/
structure InUse (n : Nested) (m : Machine) (rt : Runtime) (m₁ : Machine) : Prop where
  completed : ∃ r m₀, Suspended n m r m₀ ∧ (postInitAll n r).result m₀ = .ok rt.registry
  orderly : ∃ K, m₁.Orderly K
  runtime : m₁.host.runtime = some rt

/-- A hook call of a unit that a startup from `m` declares: its hook, the registry that the call
begins with, and the machine that calls it. When the first phase fails no unit is active yet, so
that none is finalized. -/
inductive LifecycleCall (n : Nested) (m : Machine) :
    EntryPoint → DeclaredUnit → (UnitHandle → Behaviour Status) → Registry → Machine → Prop where
  /-- The first phase calls the hook, once the units before have passed it. -/
  | init {u : DeclaredUnit} {hook : UnitHandle → Behaviour Status} {r after : Registry}
      {m₁ : Machine} {outcome : Except StartupError Registry} :
      CallsHook n m .init u hook r m₁ after outcome → LifecycleCall n m .init u hook r m₁
  /-- The second phase calls it. -/
  | postInit {before behind : List DeclaredUnit} {u : DeclaredUnit} {r r₁ : Registry}
      {m₀ m₁ : Machine} {hook : UnitHandle → Behaviour Status} : Suspended n m r m₀ →
      m.declares = before ++ u :: behind →
      (postInitUnits n r (before.map (·.handle))).result m₀ = (none, r₁) →
      (postInitUnits n r (before.map (·.handle))).after m₀ = m₁ →
      (m₁.host.modules.get? u.handle).bind (·.postInit) = some hook →
      LifecycleCall n m .postInit u hook r₁ m₁
  /-- The second phase fails, and the units that are active by then are finalized. -/
  | aborted {u : DeclaredUnit} {r r' r₁ : Registry} {m₀ m₁ : Machine} {e : StartupError}
      {hook : UnitHandle → Behaviour Status} : u ∈ m.declares → Suspended n m r m₀ →
      (postInitUnits n r r.handles).result m₀ = (some e, r') →
      Finalizes n r' {} r'.handles ((postInitUnits n r r.handles).after m₀) (hook u.handle)
        (calling .finalize r₁ u.handle m₁) →
      LifecycleCall n m .finalize u hook r₁ m₁
  /-- The runtime is taken out of use, to be shut down or dropped. -/
  | retired {u : DeclaredUnit} {rt : Runtime} {r₁ : Registry} {m₀ m₁ : Machine}
      {hook : UnitHandle → Behaviour Status} : u ∈ m.declares → InUse n m rt m₀ →
      Finalizes n rt.registry {} rt.registry.handles m₀.retired (hook u.handle)
        (calling .finalize r₁ u.handle m₁) →
      LifecycleCall n m .finalize u hook r₁ m₁
  /-- The runtime is dropped since that of other units takes its place. -/
  | replaced {u : DeclaredUnit} {rt : Runtime} {r r₁ : Registry} {m₀ m₁ : Machine}
      {K : List UnitHandle} {hook : UnitHandle → Behaviour Status} : u ∈ m.declares →
      InUse n m rt m₀ → m₀.Orderly (r.handles ++ K) → m₀.host.Holds .active r →
      Finalizes n rt.registry {} rt.registry.handles (m₀.withHost (m₀.host.serve r))
        (hook u.handle) (calling .finalize r₁ u.handle m₁) →
      LifecycleCall n m .finalize u hook r₁ m₁

theorem Pending.suspended (h : Pending n m r m₁) (hn : n.Lawful) (ho : m.Orderly G) :
    Suspended n m r m₁ := by
  obtain ⟨-, -, -, hs, ho₁⟩ := h.does hn ho
  rw [← hs.reads.handles_eq] at ho₁
  exact ⟨h.initialized, ⟨G, ho₁⟩, hs.holds⟩

theorem Running.inUse (h : Running n m rt m') (hn : n.Lawful) (ho : m.Orderly G) :
    InUse n m rt m' := by
  obtain ⟨_, _, _, _, _, _, _, _, ho', hrt⟩ := h.ready hn ho
  obtain ⟨r, m₁, hp, hpost⟩ := h.exists_pending hn ho
  rw [(ho'.host.runtime rt hrt).published] at hpost
  exact ⟨⟨r, m₁, hp.suspended hn ho, hpost⟩, ⟨G, ho'⟩, hrt⟩

/-! ### What their registries know -/

theorem knows_of_reads (hr : r.Reads us σ) (hnodup : (us.map (·.handle)).Nodup) (hu : u ∈ us) :
    r.Knows u := by
  obtain ⟨v, hv, hoption, -⟩ := hr.unit? hnodup hu
  exact ⟨v, hv, hoption⟩

theorem stands_of_reads {state : UnitState} (hr : r.Reads us fun _ => state)
    (h : m.host.Holds state r) : m.Stands us state r := by
  refine ⟨hr, h.1, fun v hv => ?_⟩
  have hmem := List.mem_map_of_mem (f := fun u => (u.handle, u.option, state)) hv
  rw [← hr] at hmem
  obtain ⟨w, hw, heq⟩ := List.mem_map.1 hmem
  simp only [Prod.mk.injEq] at heq
  obtain ⟨mod, hload, hmod⟩ := (h.2 w hw).2
  exact ⟨mod, by rw [← heq.2.1, hload], by rw [← heq.1, hmod]⟩

theorem reads_of_initAll (hn : n.Lawful) (ho : m.Orderly G) (h : (initAll n).result m = .ok r) :
    r.Reads m.declares fun _ => .activePending := by
  have hend := initAll_end (X := []) (G := G) hn ho
  rw [h] at hend
  cases hend with
  | done _ _ hs => exact hs.reads

theorem Suspended.stands (h : Suspended n m r m₁) (hn : n.Lawful) (ho : m.Orderly G) :
    m₁.Stands m.declares .activePending r ∧
      ∃ K, m₁.Orderly (m.declares.map (·.handle) ++ (units [] ++ K)) := by
  have hreads := reads_of_initAll hn ho h.initialized
  obtain ⟨K, ho₁⟩ := h.orderly
  rw [hreads.handles_eq] at ho₁
  exact ⟨stands_of_reads hreads h.holds, K, ho₁⟩

theorem InUse.stands (h : InUse n m rt m₁) (hn : n.Lawful) (ho : m.Orderly G) :
    m₁.Stands m.declares .active rt.registry := by
  obtain ⟨r, m₀, hsuspended, hpost⟩ := h.completed
  obtain ⟨hs, K, ho₀⟩ := hsuspended.stands hn ho
  have hend := postInitAll_end (X := []) hn ho₀ hs
  rw [hpost] at hend
  obtain ⟨K', ho₁⟩ := h.orderly
  cases hend with
  | done _ _ hs' => exact stands_of_reads hs'.reads (ho₁.host.runtime rt h.runtime).registry

theorem registry_eq_of_calling {r' : Registry} {x x' : UnitHandle}
    (h : calling point r x m = calling point r' x' m') : r = r' := by
  have hsession := congrArg (fun m => (m.host.sessions.map (·.registry)).head?) h
  simpa only [calling, Machine.push, Machine.withHost, List.map_cons, List.head?_cons,
    Option.some.injEq] using hsession

theorem Finalizes.knows (hn : n.Lawful) {code : Behaviour Status}
    (h : Finalizes n r {} r.handles m code (calling .finalize r₁ u.handle m₁))
    (ho : m.Orderly (us.map (·.handle) ++ (units [] ++ G))) (hr : r.Reads us σ)
    (ha : ∀ v ∈ us, m.Attached v) (hu : u ∈ us) :
    r₁.Knows u ∧ ∃ K, (begun .finalize r₁ u.handle m₁).Orderly K := by
  rw [hr.handles_eq] at h
  obtain ⟨ho', -, r', x, m', σ', heq, hreads⟩ :=
    h.attached hn us (List.Sublist.refl _) ho hr fun _ _ _ => ha
  rw [← registry_eq_of_calling heq] at hreads
  exact ⟨knows_of_reads hreads ho.nodup hu, _, ho'⟩

/-- The registry of a hook call has its unit as it was declared. -/
theorem LifecycleCall.knows (h : LifecycleCall n m point u hook r m₁) (hn : n.Lawful)
    (ho : m.Orderly G) :
    u ∈ m.declares ∧ r.Knows u ∧ ∃ K, (begun point r u.handle m₁).Orderly K := by
  cases h with
  | init h =>
    cases h with
    | @init before behind _ r₀ m₀ mod _ _ hus hbefore hafter hload =>
      have hu : u ∈ m.declares := by simp [hus]
      have ho₀ := (orderly_afterDeclares (X := []) ho (moves_afterDeclares [] m)).1
      have hvs : before.Sublist m.declares := hus ▸ List.sublist_append_left ..
      obtain ⟨es, σ, hd, -, hreads, -⟩ := initUnits_does (X := []) hn before
        ⟨hvs, ho₀, reads_declares m, (fun _ he => by cases he), fun _ _ => rfl⟩ fun _ _ => by simp
      rw [hbefore] at hreads
      have ho₁ := hd.orderly ho₀
      rw [hafter] at ho₁
      obtain ⟨hd', -, hr⟩ := attach_does (X := []) (m := m₀) (List.mem_map_of_mem hu) r₀ mod
      have hattached : ((attach r₀ u.handle mod).result m₀).Reads m.declares
          (Function.update σ u.handle .loaded) := by
        rw [hr]
        exact hreads.modifyUnit (fun _ => rfl) (fun _ => rfl) fun _ => rfl
      exact ⟨hu, knows_of_reads hattached ho₁.nodup hu, _, orderly_begun (hd'.orderly ho₁)⟩
  | @postInit before behind _ r₀ _ m₀ _ _ hsuspended hus hbefore hafter _ =>
    have hu : u ∈ m.declares := by simp [hus]
    have hvs : before.Sublist m.declares := hus ▸ List.sublist_append_left ..
    obtain ⟨hs, K, ho₀⟩ := hsuspended.stands hn ho
    obtain ⟨es, σ, active, hd, -, hreads, -⟩ := postInitUnits_does (X := []) hn before
      ⟨hvs, ho₀, hs.reads, hs.owned, fun _ _ => rfl⟩ fun v hv => hs.attached v (hvs.subset hv)
    rw [hbefore] at hreads
    have ho₁ := hd.orderly ho₀
    rw [hafter] at ho₁
    exact ⟨hu, knows_of_reads hreads ho₁.nodup hu, _, orderly_begun ho₁⟩
  | @aborted _ r₀ r' _ m₀ _ e _ hu hsuspended hres hf =>
    obtain ⟨hs, K, ho₀⟩ := hsuspended.stands hn ho
    obtain ⟨es, σ, _, hd, hcomp, hreads, -⟩ :=
      postInitUnits_does (X := []) hn m.declares (.all ho₀ hs.reads hs.owned) hs.attached
    have hhandles : r₀.handles = m.declares.map (·.handle) := hs.reads.handles_eq
    rw [hhandles] at hres hf
    rw [hres] at hreads
    refine ⟨hu, hf.knows hn (hd.orderly ho₀) hreads (fun v hv => ?_) hu⟩
    exact hd.attached (List.mem_map_of_mem hv) (hs.attached v hv) (hcomp.plain _)
  | @retired _ rt _ m₀ _ _ hu huse hf =>
    have hs := huse.stands hn ho
    obtain ⟨K, ho₀⟩ := huse.orderly
    exact ⟨hu, hf.knows hn (orderly_retired huse.runtime hs.reads ho₀) hs.reads hs.attached hu⟩
  | @replaced _ rt r' _ m₀ _ K _ hu huse ho₀ hholds hf =>
    have hs := huse.stands hn ho
    have hin : m₀.Orderly (units (ofUnits r'.handles ++ []) ++ K) := by simpa using ho₀
    have hserved := ((UnitOp.serve_moves huse.runtime hholds).orderly hin).1.in_hand
    rw [show rt.registry.units.map (·.handle) = _ from hs.reads.handles_eq] at hserved
    exact ⟨hu, hf.knows hn hserved hs.reads hs.attached hu⟩

end Startup

end AccelHost
