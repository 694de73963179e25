import AccelHost.Proofs.RecordsUnits

/-!
Operations on units and runtimes with their chronicles, and with them whole runs, to any depth of
foreign code within foreign code.
-/
namespace AccelHost

open Holding

variable {n : Nested} {j : Nat} {G K : List UnitHandle} {m : Machine} {r : Registry}

namespace UnitOp

/-- The runtime that is taken out of use comes into hand with its units. -/
theorem retire_records (hd : m.Discreet G K) {rt : Runtime} (hrt : m.host.runtime = some rt) :
    let m' := m.withHost { m.host with runtime := none }
    m'.Discreet (rt.registry.handles ++ G) K ∧ Plain m m' := by
  intro m'
  have hm : Moves [] m (ofUnits rt.registry.handles ++ []) m' := .retire hrt
  have ho := (hm.orderly hd.orderly).1
  refine ⟨⟨?_, hd.names⟩, hm.around, rfl, (fun _ h => by cases h),
    ⟨[], (List.append_nil _).symm, by simp⟩, rfl⟩
  simpa [List.append_assoc] using ho

theorem withRuntime?_records {α : Type} (hd : m.Discreet G K) {f : Runtime → Work α}
    (hf : ∀ rt m, m.Discreet (rt.registry.handles ++ G) K →
      Records K j m (f rt) (Stays (rt.registry.handles ++ G) K)) :
    Records K j m (withRuntime? f) (Stays G K) := by
  refine .host ?_
  cases hrt : m.host.runtime with
  | none => exact .pure hd
  | some rt =>
    obtain ⟨hd₁, hp⟩ := retire_records hd hrt
    exact .modifyHost hp (.bind (hf rt _ hd₁) fun hd => .pure hd.forget)

/-- What was pending comes into hand in secret. -/
theorem resume_records (hd : m.Discreet G K) (hr : m.host.pending = some r) :
    let m' := m.withHost { m.host with pending := none }
    m'.Discreet G (r.handles ++ K) ∧ Plain m m' := by
  intro m'
  have hm : Moves [] m (ofUnits r.handles ++ []) m' := .resume hr
  have ho := (hm.orderly hd.orderly).1
  have ho' : m'.Orderly (r.handles ++ (G ++ K)) := by simpa using ho
  refine ⟨⟨ho'.perm (List.perm_append_comm_assoc ..), fun l e x hl hx => ?_⟩,
    .of_eq hm.around rfl rfl rfl rfl⟩
  obtain ⟨hlt, hK, hp⟩ := hd.names l e x hl hx
  refine ⟨hlt, fun hmem => (List.mem_append.1 hmem).elim (fun hmem => hp ?_) hK, by
    simp [m', Host.pendingUnits, Machine.withHost]⟩
  rw [Host.pendingUnits, hr]
  exact hmem

theorem dropPending?_records (hd : m.Discreet G K) :
    Records K j m dropPending? (Stays G K) := by
  refine .host ?_
  cases hr : m.host.pending with
  | none => exact .pure hd
  | some r =>
    obtain ⟨hd₁, hp⟩ := resume_records hd hr
    have hrelease := Startup.releaseAll_records (j := j) (r := r) hd₁ fun x hx =>
      List.mem_append_right G (List.mem_append_left K hx)
    refine .modifyHost hp (.bind (hrelease.mono fun x hx => List.mem_append_right _ hx)
      fun hd => ?_)
    exact .pure hd.forget_secret

theorem suspend_records (hd : m.Discreet G (r.handles ++ K)) (hr : m.host.Holds .activePending r) :
    Records K j m (suspend r) (Stays G K) := by
  have ho : m.Orderly (Holding.units (ofUnits r.handles ++ []) ++ (G ++ K)) := by
    simpa using Machine.Discreet.perm_secret hd.orderly
  have hmoves := suspend_carries (X := []) hr ho
  have hdrop := (dropPending?_records (j := j) hd).mono fun x hx => List.mem_append_right _ hx
  refine .bind hdrop fun hd₁ => .modifyHost ?_ (.pure ?_)
  · exact .of_eq { Around.refl _ with } rfl rfl rfl rfl
  · refine ⟨(hmoves.orderly ho).1, fun l e x hl hx => ?_⟩
    obtain ⟨hlt, hK, -⟩ := hd₁.names l e x hl hx
    exact ⟨hlt, fun hmem => hK (List.mem_append_right _ hmem), fun hmem =>
      hK (List.mem_append_left _ hmem)⟩

theorem install_records (hn : n.Recorded j) (hd : m.Discreet G (r.handles ++ K))
    (hr : m.host.Holds .active r) :
    Records K j m (Startup.publish r >>= install n) (Stays G K) := by
  have ho : m.Orderly (Holding.units (ofUnits r.handles ++ []) ++ (G ++ K)) := by
    simpa using Machine.Discreet.perm_secret hd.orderly
  have hruntime : ∀ rt, (m.withHost (m.host.serve r)).host.runtime = some rt →
      m.host.serial ≤ rt.replacements.id ∧
        rt.replacements.id < (m.withHost (m.host.serve r)).host.serial ∧
        rt.replacements.compiled = [] := by
    intro rt hrt
    cases hrt
    exact ⟨Nat.le_refl _, Nat.lt_succ_self _, rfl⟩
  have hplain (ha : Around m (m.withHost (m.host.serve r))) :
      Plain m (m.withHost (m.host.serve r)) :=
    ⟨ha, rfl, fun rt hrt => .inr (hruntime rt hrt),
      ⟨[], (List.append_nil _).symm, by simp⟩, rfl⟩
  rw [Records, Recounts, after_install]
  cases hold : m.host.runtime with
  | none =>
    have hm : Moves (ofUnits r.handles ++ []) m [] (m.withHost (m.host.serve r)) :=
      .install hold hr
    exact ⟨⟨(hm.orderly ho).1, hd.forget_secret.names⟩, [], .plain (hplain hm.around), rfl⟩
  | some old =>
    have hm := serve_moves (X := []) hold hr
    have hd₁ : (m.withHost (m.host.serve r)).Discreet (old.registry.handles ++ G) K := by
      refine ⟨?_, hd.forget_secret.names⟩
      have ho₁ := (hm.orderly ho).1
      simpa [List.append_assoc] using ho₁
    have hall : ∀ x ∈ old.registry.handles, x ∈ (old.registry.handles ++ G) ++ K := fun x hx =>
      List.mem_append_left K (List.mem_append_left G hx)
    have hdrop : Records K j _ (Startup.drop n old) _ := Startup.drop_records hn hd₁ hall
    obtain ⟨hd₂, ds, hds, hos⟩ := hdrop
    exact ⟨hd₂.forget, [] ++ ds, Chronicle.trans (.plain (hplain hm.around)) hds, hos⟩

/-- The second phase of a startup, whose units are in secret until they are published. -/
theorem complete_records (hn : n.Recorded j) (hd : m.Discreet G (r.handles ++ K))
    (hr : m.host.Holds .activePending r) : Records K j m (complete n r) (Stays G K) := by
  have ho : m.Orderly (Holding.units (ofUnits r.handles ++ []) ++ (G ++ K)) := by
    simpa using Machine.Discreet.perm_secret hd.orderly
  have hpost := Startup.postInitAll_records (r := r) hn hd fun x hx =>
    List.mem_append_right G (List.mem_append_left K hx)
  refine .bind (hpost.mono fun x hx => List.mem_append_right _ hx) fun ⟨hd₁, hhandles⟩ => ?_
  cases h : (Startup.postInitAll n r).result m with
  | error e => exact .pure hd₁.forget_secret
  | ok r' =>
    rw [← hhandles r' h] at hd₁
    exact install_records hn hd₁ (Startup.holds_of_postInitAll hn.lawful ho hr h)

theorem counts_records (hd : m.Discreet G K) : Records K j m counts (Stays G K) := by
  refine .host ?_
  split
  · exact .pure hd
  · exact .bind (P := Stays G K) (.await (.pure (hd.await _))) fun hd => .pure hd

theorem perform_records (hn : n.Recorded j) (hd : m.Discreet G K) (op : UnitOp) :
    Records K j m (op.perform n) (Stays G K) := by
  have ho : m.Orderly (Holding.units [] ++ (G ++ K)) := hd.orderly
  have hinit := (Startup.initAll_records hn hd).mono fun x hx => List.mem_append_right _ hx
  cases op with
  | start =>
    rw [perform_start]
    refine .bind hinit fun ⟨hd₁, hhandles⟩ => ?_
    cases h : (Startup.initAll n).result m with
    | error e => exact .pure hd₁.forget_secret
    | ok r =>
      rw [← hhandles r h] at hd₁
      exact complete_records hn hd₁ (Startup.holds_of_initAll hn.lawful ho h)
  | initAll =>
    refine .bind hinit fun ⟨hd₁, hhandles⟩ => ?_
    cases h : (Startup.initAll n).result m with
    | error e => exact .pure hd₁.forget_secret
    | ok r =>
      rw [← hhandles r h] at hd₁
      exact suspend_records hd₁ (Startup.holds_of_initAll hn.lawful ho h)
  | postInitAll =>
    refine .host ?_
    cases hr : m.host.pending with
    | none => exact .pure hd
    | some r =>
      obtain ⟨hd₁, hp⟩ := resume_records hd hr
      refine .modifyHost hp ?_
      have hholds : Host.Holds { m.host with pending := none } .activePending r :=
        (hd.orderly.host.pending r hr).mono rfl fun _ _ => rfl
      refine Eq.mp (congrArg (Records K j _ · _) ?_) (complete_records hn hd₁ hholds)
      unfold complete
      refine congrArg _ (funext fun res => ?_)
      cases res <;> rfl
  | dropPending =>
    refine .bind (dropPending?_records hd) fun hd => ?_
    split <;> exact .pure hd
  | emptyRuntime =>
    have hempty : m.host.Holds .active {} := ⟨(fun _ h => by cases h), by simp⟩
    exact install_records hn (r := {}) hd hempty
  | shutdown =>
    refine .bind (withRuntime?_records hd fun rt m hd => ?_) fun hd => ?_
    · exact Startup.shutdown_records hn hd fun x hx => by simp [hx]
    · split <;> exact .pure hd
  | dropRuntime =>
    refine .bind (withRuntime?_records hd fun rt m hd => ?_) fun hd => ?_
    · exact Startup.drop_records hn hd fun x hx => by simp [hx]
    · split <;> exact .pure hd
  | units | runtime | flags => exact .host (.pure hd)
  | describe identifiers =>
    refine .bind (counts_records hd) fun hd => .host (.pure hd)

end UnitOp

/-! ### Runs -/

/-- An operation does with entries what it is for. -/
theorem Op.perform_recounts (hn : n.Recorded j) (hd : m.Discreet G K) (op : Op) :
    Recounts K j m (op.deals n m) (op.perform n) (Stays G K) := by
  cases op with
  | heap op =>
    exact .of_carries hd (.host (.modifyHost (.heapOp op) .pure)) (op.lore_perform m.host) rfl
  | registry op => exact op.perform_records hd
  | dispatch op => exact op.perform_recounts hn hd
  | units op => exact op.perform_records hn hd
  | env code =>
    refine .bind (hn.runCode hd code) fun hd => ?_
    split <;> exact .pure hd

/-- What an operation does is not done by those who have it carried out. -/
theorem Op.answer_records (hn : n.Recorded j) (hd : m.Discreet G K) (op : Op) :
    Records K (j + 1) m (op.answer n) (Stays G K) := by
  refine .bind (.journaled hd fun m hd => ?_) fun hd => .pure hd
  obtain ⟨hd₁, ds, hds, hos⟩ := op.perform_recounts hn hd
  obtain rfl := hn.depth
  exact ⟨hd₁, _, .step hds hos, Dealing.own_map_step op m⟩

theorem answers_records (hn : n.Recorded j) (hd : m.Discreet G K) (ops : List Op) :
    Records K (j + 1) m (ops.mapM (Op.answer n)) (Stays G K) := by
  induction ops generalizing m with
  | nil => exact .pure hd
  | cons op ops ih =>
    rw [List.mapM_cons]
    exact .bind (op.answer_records hn hd) fun hd => .bind (ih hd) fun hd => .pure hd

theorem closeHost_records (hn : n.Recorded j) (hd : m.Discreet G K) :
    Records K j m (closeHost n) (Stays G K) := by
  have hguards : (m.withHost { m.host with
      heap := m.host.heap.unpinAll (m.host.guards.map (·.2)), guards := [] }).Discreet G K :=
    hd.of_lore (hd.orderly.of_same rfl { Host.Same.refl m.host with } rfl) rfl (Nat.le_refl _)
  refine .modifyHost (.of_eq { Around.refl m with } rfl rfl rfl rfl) ?_
  refine .bind (UnitOp.dropPending?_records hguards) fun hd => ?_
  refine .bind (UnitOp.withRuntime?_records hd fun rt m hd => ?_) fun hd => .pure hd
  exact Startup.drop_records hn hd fun x hx => by simp [hx]

theorem runSteps_records (hn : n.Recorded j) (hd : m.Discreet G K) (steps : List Op) :
    Records K (j + 1) m (runSteps n steps) (Stays G K) :=
  .bind (answers_records hn hd steps) fun hd =>
    .bind (.journaled hd fun _ hd => (closeHost_records hn hd).deepen) fun hd => .pure hd

/-- A program within a hook has a chronicle of its own, and leaves the host that waits for it. -/
theorem runNested_records (hn : n.Recorded j) (hd : m.Discreet G K) (p : Program) :
    Records K (j + 1) m (runNested n p) (Stays G K) := by
  obtain ⟨hd₁, ds, hds, hos⟩ := runSteps_records hn (hd.enter p) p.steps
  obtain ⟨hwaited, -⟩ := hds.around.waited_leave
  let m' := ((runSteps n p.steps).after (m.enter p)).leave
  have hlore : m'.host.lore = m.host.lore := by rw [Host.lore, Host.lore, hwaited.rest]
  have hnext : m.nextHandle ≤ m'.nextHandle := by
    rw [Around.nextHandle_leave]
    exact hds.around.nextHandle
  exact ⟨hd.of_lore hd₁.orderly.leave hlore hnext, _, .nested hds hos, Dealing.own_map_within⟩

namespace Nested

theorem recorded_zero : (ofDepth 0).Recorded 0 :=
  ⟨rfl, fun _ _ _ _ hd => .pure hd, fun _ _ _ _ hd => .pure hd⟩

/-- Operations and programs of any depth have chronicles. -/
theorem recorded_ofDepth (depth : Nat) : (ofDepth depth).Recorded depth := by
  induction depth with
  | zero => exact recorded_zero
  | succ depth ih =>
    exact ⟨rfl, fun op _ _ _ hd => op.answer_records ih hd,
      fun p _ _ _ hd => runNested_records ih hd p⟩

end Nested

end AccelHost
