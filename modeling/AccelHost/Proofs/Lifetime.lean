import AccelHost.Proofs.RunMoves
import AccelHost.Proofs.Steady

/-!
The lifetime of the units of a startup, from their declaration to the release of their modules. A
startup may fail in either phase, its units may be dropped between the phases, and a runtime may be
shut down or dropped; between all this the host may do anything else.
-/
namespace AccelHost

open Holding

theorem Machine.Stands.of_does {X : List Holding} {m m' : Machine} {r : Registry}
    {us : List DeclaredUnit} {state : UnitState} (hs : m.Stands us state r)
    (hd : Does X (us.map (·.handle)) [] m m') : m'.Stands us state r :=
  ⟨hs.reads, hs.owned, fun v hv =>
    hd.attached (List.mem_map_of_mem hv) (hs.attached v hv) (by simp)⟩

def Machine.retired (m : Machine) : Machine := m.withHost { m.host with runtime := none }

namespace Startup

variable {n : Nested} {G : List UnitHandle} {m m₁ m₂ m' : Machine} {r : Registry} {rt : Runtime}

/-- The first phase of a startup has succeeded, and other operations followed. -/
structure Pending (n : Nested) (m : Machine) (r : Registry) (m₁ : Machine) : Prop where
  initialized : (initAll n).result m = .ok r
  later : ∃ ops : List Op, m₁ = (ops.mapM (Op.answer n)).after ((initAll n).after m)

/-- The second phase has succeeded, too. Other operations followed that left its runtime in use. -/
inductive Running (n : Nested) (m : Machine) (rt : Runtime) (m' : Machine) : Prop where
  | mk {r r' : Registry} {m₁ : Machine} {ops : List Op} : Pending n m r m₁ →
      (postInitAll n r).result m₁ = .ok r' →
      m' = (ops.mapM (Op.answer n)).after
        ((publish r' >>= UnitOp.install n).after ((postInitAll n r).after m₁)) →
      m'.host.runtime = some rt →
      rt.replacements.id = ((publish r').result ((postInitAll n r).after m₁)).replacements.id →
      Running n m rt m'

/-- The ways in which the units of a startup come to their end. -/
inductive Life (n : Nested) (m : Machine) : Option ShutdownReport → Machine → Prop where
  | initFailed {e : StartupError} : (initAll n).result m = .error e →
      Life n m none ((initAll n).after m)
  | pendingDropped {r : Registry} {m₁ : Machine} : Pending n m r m₁ →
      Life n m none ((releaseAll r).after m₁)
  | postInitFailed {r : Registry} {m₁ : Machine} {e : StartupError} : Pending n m r m₁ →
      (postInitAll n r).result m₁ = .error e → Life n m none ((postInitAll n r).after m₁)
  | shutDown {rt : Runtime} {m₁ : Machine} : Running n m rt m₁ →
      Life n m (some ((shutdown n rt).result m₁.retired)) ((shutdown n rt).after m₁.retired)
  | dropped {rt : Runtime} {m₁ : Machine} : Running n m rt m₁ →
      Life n m none ((drop n rt).after m₁.retired)

/-- What is told about the units of a startup in their lifetime: their loading, their completion,
the end of those that became active, and the release of the modules that were attached. -/
inductive Story (src : Source) (us : List DeclaredUnit) :
    List TraceEvent → List DeclaredUnit → ShutdownReport → Prop where
  | mk {ls ps fs : List TraceEvent} {active : List DeclaredUnit} {report : ShutdownReport}
      {loaded : Bool} : Loading us ls loaded →
      ps = [] ∧ active = [] ∨ (loaded = true ∧ ∃ done, Completing src us ps active done) →
      Finalizing src active fs report.finalized report.failures →
      Story src us (ls ++ (ps ++ (fs ++
        (us.filter fun u => .attached u.handle ∈ ls).map (.released ·.handle)))) active report

/-- Operations leave alone what is in hand. -/
theorem answers_does (hn : n.Lawful) {xs : List UnitHandle} (ho : m.Orderly (xs ++ G))
    (ops : List Op) : Does [] xs [] m ((ops.mapM (Op.answer n)).after m) :=
  .of_moves (X := []) (G := G) ho
    (answers_carries (G := G) (X := ofUnits xs ++ []) hn ops (by simpa using ho))
    (answers_carries (G := xs ++ G) (X := []) hn ops ho)

theorem filter_attached_of_done {us : List DeclaredUnit} {es : List TraceEvent}
    (h : Loading us es true) : us.filter (fun u => .attached u.handle ∈ es) = us :=
  List.filter_eq_self.2 fun _ hu => decide_eq_true (h.attached_of_done rfl hu)

theorem Pending.does (h : Pending n m r m₁) (hn : n.Lawful) (ho : m.Orderly G) :
    ∃ es, Loading m.declares es true ∧ Does [] (m.declares.map (·.handle)) es m.afterDeclares m₁ ∧
      m₁.Stands m.declares .activePending r ∧ m₁.Orderly (m.declares.map (·.handle) ++ G) := by
  obtain ⟨hinit, ops, rfl⟩ := h
  have hend := initAll_end (X := []) (G := G) hn ho
  obtain ⟨ho₁, _⟩ := orderly_afterDeclares (X := []) (G := G) ho (moves_afterDeclares [] m)
  rw [hinit] at hend
  generalize (initAll n).after m = m₀ at hend ⊢
  cases hend with
  | @done r es hload hd hs =>
    have ho₂ := hd.orderly ho₁
    have hops := answers_does (G := G) hn ho₂ ops
    refine ⟨es, hload, by simpa using hd.trans hops, hs.of_does hops, hops.orderly ho₂⟩

/-- A runtime that is still in use has all units active, and no more was told about them. -/
theorem Running.ready (h : Running n m rt m') (hn : n.Lawful) (ho : m.Orderly G) :
    ∃ ls ps, Loading m.declares ls true ∧
      Completing m.host.source m.declares ps m.declares true ∧
      own (m.declares.map (·.handle)) m'.trace =
        own (m.declares.map (·.handle)) m.trace ++ (ls ++ ps) ∧
      rt.registry.Reads m.declares (fun _ => .active) ∧ (∀ v ∈ m.declares, m'.Attached v) ∧
      m'.host.source = m.host.source ∧ m'.Orderly G ∧ m'.host.runtime = some rt := by
  obtain @⟨r, r', m₁, ops, hpending, hpost, hm', hrt, hid⟩ := h
  obtain ⟨ls, hload, hd₁, hs₁, ho₁⟩ := hpending.does hn ho
  have hend := postInitAll_end (X := []) (G := G) hn ho₁ hs₁
  rw [hpost] at hend
  generalize (postInitAll n r).after m₁ = m₂ at hend hid hm'
  cases hend with
  | @done _ ps hcomp hd₂ hs₂ =>
    have ho₂ := hd₂.orderly (G := G) ho₁
    have hhandles : r'.handles = m.declares.map (·.handle) := hs₂.reads.handles_eq
    have hin : m₂.Orderly (units (ofUnits r'.handles ++ []) ++ G) := by
      rw [hhandles]
      simpa using ho₂
    obtain ⟨Z, h₃, h₄⟩ := UnitOp.install_moves hn hs₂.holds hin
    have ho₃ := (h₃.orderly hin).1
    have h₅ : Moves Z (m₂.withHost (m₂.host.serve r')) [] m' := by
      rw [hm']
      exact h₄.trans (answers_carries (X := []) hn _ (h₄.orderly ho₃).1)
    have ho' := (h₅.orderly ho₃).1
    obtain ⟨hsame, hframed⟩ := h₅.steady ho₃ rfl hrt hid
    have hreg : rt.registry = r' := hsame
    have hsource : m₂.host.source = m.host.source :=
      hd₂.moves.around.source.trans hd₁.moves.around.source
    have hsource' : m'.host.source = m₂.host.source := h₅.around.source
    obtain ⟨es, htrace, hes⟩ := hframed.trace
    refine ⟨ls, ps, hload, ?_, ?_, ?_, fun v hv => ?_, hsource'.trans hsource, ho', hrt⟩
    · have hsource₁ : m₁.host.source = m.host.source := hd₁.moves.around.source
      rwa [hsource₁] at hcomp
    · have hnone : own (m.declares.map (·.handle)) es = [] :=
        own_eq_nil fun e he x hx => hhandles ▸ (hes e he x hx).1
      have htold : own (m.declares.map (·.handle)) m₂.trace =
          own (m.declares.map (·.handle)) m.trace ++ (ls ++ ps) := by
        rw [hd₂.told, hd₁.told, List.append_assoc]
        rfl
      rw [htrace, own_append, hnone, List.append_nil]
      exact htold
    · rw [hreg]
      exact hs₂.reads
    · obtain ⟨mod, hl, hmod⟩ := hs₂.attached v hv
      refine ⟨mod, by rw [hsource', hl], ?_⟩
      have hx : v.handle ∈ r'.handles := by
        rw [hhandles]
        exact List.mem_map_of_mem hv
      exact (hframed.modules _ hx).trans hmod

theorem withRuntime?_of_runtime {α : Type} {f : Runtime → Work α} (h : m.host.runtime = some rt) :
    (UnitOp.withRuntime? f).result m =
        some ((f rt).result m.retired) ∧
      (UnitOp.withRuntime? f).after m =
        (f rt).after m.retired := by
  unfold UnitOp.withRuntime?
  simp only [Work.result_bind, Work.after_bind, Work.result_host, Work.after_host, h,
    Work.after_modifyHost]
  exact ⟨rfl, rfl⟩

theorem orderly_retired {us : List DeclaredUnit} (hrt : m.host.runtime = some rt)
    (hr : rt.registry.Reads us fun _ => .active) (ho : m.Orderly G) :
    m.retired.Orderly (us.map (·.handle) ++ (units [] ++ G)) := by
  have hm : m.retired.Orderly (units (ofUnits rt.registry.handles ++ []) ++ G) :=
    ((Moves.retire (X := []) hrt).orderly ho).1
  rw [hr.handles_eq] at hm
  simpa using hm

theorem Running.finishes (h : Running n m rt m₁) (hn : n.Lawful) (ho : m.Orderly G)
    {report : ShutdownReport}
    (hends : rt.finalized = false →
      m₁.retired.Orderly (m.declares.map (·.handle) ++ (units [] ++ G)) →
      rt.registry.Reads m.declares (fun _ => .active) → (∀ v ∈ m.declares, m₁.retired.Attached v) →
      Ends [] m.declares (fun _ => .active) m₁.retired m' report) :
    ∃ ls ps fs, Loading m.declares ls true ∧
      Completing m.host.source m.declares ps m.declares true ∧
      Finalizing m.host.source m.declares fs report.finalized report.failures ∧
      own (m.declares.map (·.handle)) m'.trace = own (m.declares.map (·.handle)) m.trace ++
        (ls ++ (ps ++ (fs ++ m.declares.map (.released ·.handle)))) := by
  obtain ⟨ls, ps, hload, hcomp, htold, hreads, ha, hsource, ho₁, hrt⟩ := h.ready hn ho
  obtain ⟨fs, hfin, hd, _⟩ := hends (ho₁.host.runtime rt hrt).unfinished
    (orderly_retired hrt hreads ho₁) hreads ha
  have hsource' : m₁.retired.host.source = m.host.source := hsource
  have htold' : own (m.declares.map (·.handle)) m₁.retired.trace = _ := htold
  rw [present_of_attached (m := m₁.retired) ha, List.map_map] at hd
  simp only [decide_true, List.filter_true, hsource'] at hfin
  refine ⟨ls, ps, fs, hload, hcomp, hfin, ?_⟩
  rw [hd.told, htold']
  simp only [List.append_assoc]
  rfl

/-- However the units of a startup come to their end, their story is told as a whole. -/
theorem Life.story {report : Option ShutdownReport} (h : Life n m report m') (hn : n.Lawful)
    (ho : m.Orderly G) :
    ∃ es active rep, own (m.declares.map (·.handle)) m'.trace =
        own (m.declares.map (·.handle)) m.trace ++ es ∧
      Story m.host.source m.declares es active rep ∧ ∀ r, report = some r → r = rep := by
  have hnone : ∀ {es : List TraceEvent} {b : Bool}, Loading m.declares es b →
      Story m.host.source m.declares (es ++ ([] ++ ([] ++
        (m.declares.filter fun u => .attached u.handle ∈ es).map (.released ·.handle)))) [] {} :=
    fun hl => .mk hl (.inl ⟨rfl, rfl⟩) .nil
  cases h with
  | @initFailed e he =>
    have hend := initAll_end (X := []) (G := G) hn ho
    rw [he] at hend
    generalize (initAll n).after m = m' at hend ⊢
    cases hend with
    | refused hrefused hm =>
      have hl : Loading m.declares [] true := by
        rw [declares_of_refused hrefused]
        exact .nil
      refine ⟨_, _, _, ?_, hnone hl, fun _ h => by cases h⟩
      rw [hm]
      simp
    | failed hload hd => exact ⟨_, _, _, hd.told, hnone hload, fun _ h => by cases h⟩
  | @pendingDropped r m₁ hp =>
    obtain ⟨ls, hload, hd, hs, ho₁⟩ := hp.does hn ho
    obtain ⟨hd', _⟩ := releaseAll_does (X := []) (G := G) ho₁ hs.reads.handles_eq
    rw [present_of_attached hs.attached, List.map_map] at hd'
    have hstory := hnone hload
    rw [filter_attached_of_done hload] at hstory
    exact ⟨_, _, _, (hd.trans hd').told, hstory, fun _ h => by cases h⟩
  | @postInitFailed r m₁ e hp he =>
    obtain ⟨ls, hload, hd, hs, ho₁⟩ := hp.does hn ho
    have hsource : m₁.host.source = m.host.source := hd.moves.around.source
    have hend := postInitAll_end (X := []) (G := G) hn ho₁ hs
    rw [he] at hend
    generalize (postInitAll n r).after m₁ = m' at hend ⊢
    cases hend with
    | @failed e active ps fs rep hcomp hfin hd' =>
      rw [hsource] at hcomp hfin
      have hstory := Story.mk hload (.inr ⟨rfl, false, hcomp⟩) hfin
      rw [filter_attached_of_done hload] at hstory
      exact ⟨_, _, _, (hd.trans hd').told, hstory, fun _ h => by cases h⟩
  | @shutDown rt m₁ hr =>
    obtain ⟨ls, ps, fs, hload, hcomp, hfin, htold⟩ := hr.finishes hn ho fun hf ho hreads ha =>
      shutdown_ends (X := []) hn hf ho hreads fun v hv _ => ha v hv
    have hstory := Story.mk hload (.inr ⟨rfl, true, hcomp⟩) hfin
    rw [filter_attached_of_done hload] at hstory
    exact ⟨_, _, _, htold, hstory, fun _ h => (Option.some.inj h).symm⟩
  | @dropped rt m₁ hr =>
    obtain ⟨_, _, _, _, _, hreads, ha, _, ho₁, hrt⟩ := hr.ready hn ho
    obtain ⟨report, hends⟩ := drop_ends (X := []) hn (ho₁.host.runtime rt hrt).unfinished
      (orderly_retired hrt hreads ho₁) hreads fun v hv _ => ha v hv
    obtain ⟨ls, ps, fs, hload, hcomp, hfin, htold⟩ := hr.finishes hn ho fun _ _ _ _ => hends
    have hstory := Story.mk hload (.inr ⟨rfl, true, hcomp⟩) hfin
    rw [filter_attached_of_done hload] at hstory
    exact ⟨_, _, _, htold, hstory, fun _ h => by cases h⟩

end Startup

end AccelHost
