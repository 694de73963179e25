import AccelHost.Proofs.Lifetime

/-!
The order of hook calls. A startup calls `init` and reads the exports of one unit after another,
then calls every `post_init`; a failure unwinds what became active, and a shutdown finalizes
everything, always in the order in which units are declared.
-/
namespace AccelHost

abbrev HookCall := EntryPoint × UnitHandle

def TraceEvent.hookCall? : TraceEvent → Option HookCall
  | .entered point x => some (point, x)
  | _ => none

def hookCalls (es : List TraceEvent) : List HookCall := es.filterMap TraceEvent.hookCall?

@[simp] theorem hookCalls_append (es es' : List TraceEvent) :
    hookCalls (es ++ es') = hookCalls es ++ hookCalls es' := List.filterMap_append

/-- Every unit is initialized, and its exports are read then. -/
def initCalls (us : List DeclaredUnit) : List HookCall :=
  us.flatMap fun u => [(.init, u.handle), (.exports, u.handle)]

/-- The calls of a hook, for the units whose modules export it. -/
def exportedCalls (s : Source) (point : EntryPoint) (us : List DeclaredUnit) : List HookCall :=
  (us.filter (s.exports point)).map fun u => (point, u.handle)

/-- The calls of a startup that fails at the loading of a unit. -/
def LoadFailure (us : List DeclaredUnit) (cs : List HookCall) : Prop :=
  ∃ k u, us[k]? = some u ∧
    ∃ last, (last = [] ∨ last = [(.init, u.handle)] ∨
      last = [(.init, u.handle), (.exports, u.handle)]) ∧ cs = initCalls (us.take k) ++ last

/-- The calls of a startup that fails at the `post_init` hook of a unit. -/
def PostInitFailure (s : Source) (us : List DeclaredUnit) (cs : List HookCall) : Prop :=
  ∃ k u, us[k]? = some u ∧ s.exports .postInit u = true ∧
    cs = initCalls us ++
      (exportedCalls s .postInit (us.take (k + 1)) ++ exportedCalls s .finalize (us.take k))

variable {s : Source} {us active : List DeclaredUnit} {es : List TraceEvent} {cs : List HookCall}

theorem Loading.hookCalls_of_done {done : Bool} (h : Loading us es done) (hd : done = true) :
    hookCalls es = initCalls us := by
  induction h with
  | nil => rfl
  | missing | failed | rejected => cases hd
  | cons _ ih =>
    rw [hookCalls_append, ih hd]
    rfl

theorem LoadFailure.cons {u : DeclaredUnit} (h : LoadFailure us cs) :
    LoadFailure (u :: us) (initCalls [u] ++ cs) := by
  obtain ⟨k, v, hv, last, hlast, rfl⟩ := h
  exact ⟨k + 1, v, hv, last, hlast, rfl⟩

theorem Loading.hookCalls_of_failed {done : Bool} (h : Loading us es done) (hd : done = false) :
    LoadFailure us (hookCalls es) := by
  induction h with
  | nil => cases hd
  | @missing u us => exact ⟨0, u, rfl, [], .inl rfl, rfl⟩
  | @failed u us => exact ⟨0, u, rfl, _, .inr (.inl rfl), rfl⟩
  | @rejected u us => exact ⟨0, u, rfl, _, .inr (.inr rfl), rfl⟩
  | cons _ ih =>
    rw [hookCalls_append]
    exact (ih hd).cons

theorem Completing.hookCalls_of_done {done : Bool} (h : Completing s us es active done)
    (hd : done = true) : hookCalls es = exportedCalls s .postInit us := by
  induction h with
  | nil => rfl
  | bare hu _ ih =>
    simp only [exportedCalls, List.filter_cons, hu, Bool.false_eq_true, ↓reduceIte]
    exact ih hd
  | failed => cases hd
  | hook hu _ ih =>
    simp only [exportedCalls, List.filter_cons, hu, ↓reduceIte, List.map_cons]
    exact congrArg (_ :: ·) (ih hd)

/-- The units before the one that failed are active. -/
theorem Completing.hookCalls_of_failed {done : Bool} (h : Completing s us es active done)
    (hd : done = false) :
    ∃ k u, us[k]? = some u ∧ s.exports .postInit u = true ∧ active = us.take k ∧
      hookCalls es = exportedCalls s .postInit (us.take (k + 1)) := by
  induction h with
  | nil => cases hd
  | bare hu _ ih =>
    obtain ⟨k, v, hv, he, rfl, hc⟩ := ih hd
    refine ⟨k + 1, v, hv, he, rfl, ?_⟩
    simp only [exportedCalls, List.take_succ_cons, List.filter_cons, hu, Bool.false_eq_true,
      ↓reduceIte]
    exact hc
  | @failed u us status rejected hu =>
    refine ⟨0, u, rfl, hu, rfl, ?_⟩
    simp only [exportedCalls, List.take_succ_cons, List.take_zero, List.filter_cons, hu, ↓reduceIte]
    rfl
  | hook hu _ ih =>
    obtain ⟨k, v, hv, he, rfl, hc⟩ := ih hd
    refine ⟨k + 1, v, hv, he, rfl, ?_⟩
    rw [List.take_succ_cons, exportedCalls, List.filter_cons_of_pos hu, List.map_cons]
    exact congrArg (_ :: ·) hc

theorem Finalizing.hookCalls_eq {names : List String} {failures : List (String × String)}
    (h : Finalizing s us es names failures) : hookCalls es = exportedCalls s .finalize us := by
  induction h with
  | nil => rfl
  | bare hu _ ih =>
    rw [exportedCalls, List.filter_cons_of_neg (by simp [hu])]
    exact ih
  | hook hu _ _ ih =>
    rw [exportedCalls, List.filter_cons_of_pos hu, List.map_cons]
    exact congrArg (_ :: ·) ih

theorem hookCalls_released (us : List DeclaredUnit) :
    hookCalls (us.map (.released ·.handle)) = [] := by
  induction us with
  | nil => rfl
  | cons u us ih => exact ih

theorem postInit_not_mem_initCalls (us : List DeclaredUnit) (x : UnitHandle) :
    (.postInit, x) ∉ initCalls us := by simp [initCalls]

theorem LoadFailure.not_postInitFailure (h : LoadFailure us cs) : ¬PostInitFailure s us cs := by
  rintro ⟨k, u, hu, he, hcs⟩
  have hmem : (.postInit, u.handle) ∈ cs := by
    rw [hcs]
    have htake : u ∈ us.take (k + 1) := by
      refine List.mem_of_getElem? (i := k) ?_
      rw [List.getElem?_take_of_lt (Nat.lt_succ_self k), hu]
    exact List.mem_append_right _ (List.mem_append_left _
      (List.mem_map.2 ⟨u, List.mem_filter.2 ⟨htake, he⟩, rfl⟩))
  obtain ⟨j, v, _, last, hlast, hcs'⟩ := h
  rw [hcs', List.mem_append] at hmem
  rcases hmem with hmem | hmem
  · exact postInit_not_mem_initCalls _ _ hmem
  · rcases hlast with rfl | rfl | rfl <;> simp at hmem

namespace Startup

variable {n : Nested} {G : List UnitHandle} {m m' : Machine} {options : List UnitOption}
  {rt : Runtime}

/-- The hook calls of the units that a startup at a machine declares, up to a later machine. -/
def callsOf (m m' : Machine) : List HookCall := hookCalls (own (m.declares.map (·.handle)) m'.trace)

theorem callsOf_of_told {m' : Machine}
    (h : own (m.declares.map (·.handle)) m'.trace = own (m.declares.map (·.handle)) m.trace ++ es) :
    callsOf m m' = callsOf m m ++ hookCalls es := by
  rw [callsOf, h, hookCalls_append]
  rfl

theorem result_start_of_ok {r r' : Registry} (hr : (initAll n).result m = .ok r)
    (hr' : (postInitAll n r).result ((initAll n).after m) = .ok r') :
    (start n).result m = .ok ((publish r').result ((postInitAll n r).after ((initAll n).after m))) ∧
      (start n).after m =
        (publish r').after ((postInitAll n r).after ((initAll n).after m)) := by
  unfold start
  simp only [Work.result_bind, Work.after_bind, hr, hr']
  exact ⟨rfl, rfl⟩

theorem result_start_of_error {r : Registry} {e : StartupError}
    (hr : (initAll n).result m = .ok r)
    (hr' : (postInitAll n r).result ((initAll n).after m) = .error e) :
    (start n).result m = .error e ∧
      (start n).after m = (postInitAll n r).after ((initAll n).after m) := by
  unfold start
  simp only [Work.result_bind, Work.after_bind, hr, hr']
  exact ⟨rfl, rfl⟩

theorem result_start_of_initAll_error {e : StartupError} (hr : (initAll n).result m = .error e) :
    (start n).result m = .error e ∧ (start n).after m = (initAll n).after m := by
  unfold start
  simp only [Work.result_bind, Work.after_bind, hr]
  exact ⟨rfl, rfl⟩

theorem pending_of_initAll {r : Registry} (hr : (initAll n).result m = .ok r) :
    Pending n m r ((initAll n).after m) := ⟨hr, [], rfl⟩

theorem callsOf_start_of_error (hn : n.Lawful) (ho : m.Orderly G)
    (hp : parseAll m.host.settings.units = .ok options) (hd : (options.map (·.feature)).Nodup)
    {e : StartupError} (he : (start n).result m = .error e) :
    ∃ cs, callsOf m ((start n).after m) = callsOf m m ++ cs ∧
      (LoadFailure m.declares cs ∨ PostInitFailure m.host.source m.declares cs) := by
  cases hinit : (initAll n).result m with
  | error e' =>
    have hend := initAll_end (X := []) (G := G) hn ho
    rw [hinit] at hend
    rw [(result_start_of_initAll_error hinit).2]
    generalize (initAll n).after m = m' at hend ⊢
    cases hend with
    | refused hrefused => exact absurd hd (hrefused options hp)
    | failed hload htold =>
      refine ⟨_, callsOf_of_told htold.told, .inl ?_⟩
      rw [hookCalls_append, hookCalls_released, List.append_nil]
      exact hload.hookCalls_of_failed rfl
  | ok r =>
    obtain ⟨ls, hload, hls, hs, ho₁⟩ := (pending_of_initAll hinit).does hn ho
    have hend := postInitAll_end (X := []) (G := G) hn ho₁ hs
    cases hpost : (postInitAll n r).result ((initAll n).after m) with
    | ok r' =>
      rw [(result_start_of_ok hinit hpost).1] at he
      cases he
    | error e' =>
      rw [hpost] at hend
      rw [(result_start_of_error hinit hpost).2]
      generalize (postInitAll n r).after ((initAll n).after m) = m' at hend ⊢
      have hsource : ((initAll n).after m).host.source = m.host.source := hls.moves.around.source
      cases hend with
      | @failed _ active ps fs report hcomp hfin hd' =>
        rw [hsource] at hcomp hfin
        obtain ⟨k, u, hu, hexports, rfl, hcalls⟩ := hcomp.hookCalls_of_failed rfl
        refine ⟨_, callsOf_of_told (hls.trans hd').told, .inr ⟨k, u, hu, hexports, ?_⟩⟩
        simp only [hookCalls_append, hookCalls_released, hload.hookCalls_of_done rfl, hcalls,
          hfin.hookCalls_eq, List.append_nil]

theorem running_of_start {rt rt' : Runtime} (hstart : (start n).result m = .ok rt) (ops : List Op)
    (hrt : ((ops.mapM (Op.answer n)).after
      ((UnitOp.install n rt).after ((start n).after m))).host.runtime = some rt')
    (hid : rt'.replacements.id = rt.replacements.id) :
    Running n m rt' ((ops.mapM (Op.answer n)).after
      ((UnitOp.install n rt).after ((start n).after m))) := by
  cases hinit : (initAll n).result m with
  | error e =>
    rw [(result_start_of_initAll_error hinit).1] at hstart
    cases hstart
  | ok r =>
    cases hpost : (postInitAll n r).result ((initAll n).after m) with
    | error e =>
      rw [(result_start_of_error hinit hpost).1] at hstart
      cases hstart
    | ok r' =>
      obtain ⟨hres, haft⟩ := result_start_of_ok hinit hpost
      rw [hres] at hstart
      cases hstart
      have hm : (ops.mapM (Op.answer n)).after ((UnitOp.install n ((publish r').result
            ((postInitAll n r).after ((initAll n).after m)))).after ((start n).after m)) =
          (ops.mapM (Op.answer n)).after ((publish r' >>= UnitOp.install n).after
            ((postInitAll n r).after ((initAll n).after m))) := by
        rw [haft]
        rfl
      exact .mk (pending_of_initAll hinit) hpost hm hrt hid

theorem callsOf_start_of_ok (hn : n.Lawful) (ho : m.Orderly G) {rt : Runtime}
    (hstart : (start n).result m = .ok rt) :
    callsOf m ((start n).after m) = callsOf m m ++
      (initCalls m.declares ++ exportedCalls m.host.source .postInit m.declares) := by
  cases hinit : (initAll n).result m with
  | error e =>
    rw [(result_start_of_initAll_error hinit).1] at hstart
    cases hstart
  | ok r =>
    obtain ⟨ls, hload, hls, hs, ho₁⟩ := (pending_of_initAll hinit).does hn ho
    have hend := postInitAll_end (X := []) (G := G) hn ho₁ hs
    have hsource : ((initAll n).after m).host.source = m.host.source := hls.moves.around.source
    cases hpost : (postInitAll n r).result ((initAll n).after m) with
    | error e =>
      rw [(result_start_of_error hinit hpost).1] at hstart
      cases hstart
    | ok r' =>
      rw [hpost] at hend
      rw [(result_start_of_ok hinit hpost).2]
      have hsame : ((publish r').after ((postInitAll n r).after ((initAll n).after m))).trace =
        ((postInitAll n r).after ((initAll n).after m)).trace := rfl
      generalize (postInitAll n r).after ((initAll n).after m) = m' at hend hsame ⊢
      cases hend with
      | @done _ ps hcomp hps _ =>
        rw [hsource] at hcomp
        rw [callsOf, hsame]
        refine (callsOf_of_told (hls.trans hps).told).trans ?_
        rw [hookCalls_append, hload.hookCalls_of_done rfl, hcomp.hookCalls_of_done rfl]

theorem after_shutdown (n : Nested) (m : Machine) :
    (UnitOp.shutdown.perform n).after m = (UnitOp.withRuntime? (shutdown n)).after m := by
  unfold UnitOp.perform
  simp only [Work.after_bind]
  split <;> rfl

/-- While its runtime is in use no hook of a startup is called, and a shutdown finalizes it. -/
theorem Running.callsOf (h : Running n m rt m') (hn : n.Lawful) (ho : m.Orderly G) :
    Startup.callsOf m m' = Startup.callsOf m m ++
        (initCalls m.declares ++ exportedCalls m.host.source .postInit m.declares) ∧
      Startup.callsOf m ((UnitOp.shutdown.perform n).after m') = Startup.callsOf m m ++
        (initCalls m.declares ++ (exportedCalls m.host.source .postInit m.declares ++
          exportedCalls m.host.source .finalize m.declares)) := by
  obtain ⟨ls, ps, hload, hcomp, htold, _, _, _, _, hrt⟩ := h.ready hn ho
  refine ⟨?_, ?_⟩
  · rw [callsOf_of_told htold, hookCalls_append, hload.hookCalls_of_done rfl,
      hcomp.hookCalls_of_done rfl]
  · obtain ⟨ls, ps, fs, hload, hcomp, hfin, htold⟩ := h.finishes hn ho fun hf ho hreads ha =>
      shutdown_ends (X := []) hn hf ho hreads fun v hv _ => ha v hv
    rw [after_shutdown, (withRuntime?_of_runtime hrt).2, callsOf_of_told htold]
    simp only [hookCalls_append, hookCalls_released, hload.hookCalls_of_done rfl,
      hcomp.hookCalls_of_done rfl, hfin.hookCalls_eq, List.append_nil]

end Startup

open Startup in
/-- The hook calls of a startup. It may be made at any machine in order, as every machine is that a
program comes to. If it fails, it fails in one phase, and only what became active is finalized; if
it succeeds, no hook is called until its runtime is shut down, which finalizes every unit. -/
theorem hook_order_of_start (d : Nat) :
    (∀ program (ops : List Op),
      ((ops.mapM (Op.answer (.ofDepth d))).after (.ofProgram program)).Orderly []) ∧
    ∀ (G : List UnitHandle) (m : Machine) (options : List UnitOption), m.Orderly G →
      m.host.settings.enabled = true → parseAll m.host.settings.units = .ok options →
      (options.map (·.feature)).Nodup →
      let n := Nested.ofDepth d
      let us := declared m.nextHandle options
      let calls (m' : Machine) := hookCalls (own (us.map (·.handle)) m'.trace)
      ∃ cs, calls ((start n).after m) = calls m ++ cs ∧
        match (start n).result m with
        | .error _ =>
          (LoadFailure us cs ∨ PostInitFailure m.host.source us cs) ∧
            ¬(LoadFailure us cs ∧ PostInitFailure m.host.source us cs)
        | .ok rt =>
          cs = initCalls us ++ exportedCalls m.host.source .postInit us ∧
            ∀ (ops : List Op) (rt' : Runtime),
              let m' := (ops.mapM (Op.answer n)).after
                ((UnitOp.install n rt).after ((start n).after m))
              m'.host.runtime = some rt' → rt'.replacements.id = rt.replacements.id →
              calls m' = calls m ++ cs ∧
                calls ((UnitOp.shutdown.perform n).after m') =
                  calls m ++ (cs ++ exportedCalls m.host.source .finalize us) := by
  refine ⟨fun program ops => ?_, fun G m options ho he hp hd => ?_⟩
  · exact Op.orderly_answers d ops (Machine.orderly_ofProgram program)
  intro n us
  have hn : n.Lawful := Nested.lawful_ofDepth d
  have hus : m.declares = us := declares_eq he hp hd
  rw [← hus]
  cases hstart : (start n).result m with
  | error e =>
    obtain ⟨cs, hcs, hshape⟩ := callsOf_start_of_error hn ho hp hd hstart
    exact ⟨cs, hcs, hshape, fun h => h.1.not_postInitFailure h.2⟩
  | ok rt =>
    refine ⟨_, callsOf_start_of_ok hn ho hstart, rfl, fun ops rt' hrt hid => ?_⟩
    obtain ⟨h₁, h₂⟩ := (running_of_start hstart ops hrt hid).callsOf hn ho
    refine ⟨h₁, ?_⟩
    rw [List.append_assoc]
    exact h₂

end AccelHost
