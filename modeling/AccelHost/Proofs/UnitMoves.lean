import AccelHost.Proofs.OpMoves
import AccelHost.Proofs.Start

/-!
Operations on units and runtimes as moves. What was pending or in use comes into hand, is brought to
its end, and is forgotten.
-/
namespace AccelHost

open Holding

variable {n : Nested} {G : List UnitHandle} {X : List Holding} {m : Machine}

theorem Host.Holds.of_framed {state : UnitState} {r : Registry} {m' : Machine}
    (hr : m.host.Holds state r) (ha : Around m m') (hf : Framed G m m')
    (hG : ∀ x ∈ r.handles, x ∈ G) : m'.host.Holds state r :=
  hr.mono ha.source fun x hx => hf.modules x (hG x hx)

theorem Machine.Orderly.in_hand {r : Registry}
    (ho : m.Orderly (units (ofUnits r.handles ++ X) ++ G)) :
    m.Orderly (r.units.map (·.handle) ++ (units X ++ G)) := by
  rw [units_append, units_ofUnits, List.append_assoc] at ho
  exact ho

namespace Startup

variable {us : List DeclaredUnit} {σ : UnitHandle → UnitState} {r : Registry}

theorem Ends.moves {m' : Machine} {report : ShutdownReport} (h : Ends X us σ m m' report) :
    Moves (ofUnits (us.map (·.handle)) ++ X) m X m' := by
  obtain ⟨_, _, hd, hgone⟩ := h
  exact hd.moves.trans (.discardAll _ hgone)

theorem releaseAll_carries :
    Carries G (ofUnits r.handles ++ X) m (releaseAll r) fun _ => X := fun ho => by
  obtain ⟨hd, hgone⟩ := releaseAll_does ho.in_hand rfl
  exact hd.moves.trans (.discardAll _ hgone)

theorem drop_carries (hn : n.Lawful) {rt : Runtime} (hf : rt.finalized = false)
    (hr : m.host.Holds .active rt.registry) :
    Carries G (ofUnits rt.registry.handles ++ X) m (drop n rt) fun _ => X := fun ho => by
  obtain ⟨_, hends⟩ := drop_ends (X := X) (G := G) hn hf
    ho.in_hand (Machine.stands_of_holds hr).reads
    fun v hv _ => (Machine.stands_of_holds hr).attached v hv
  exact hends.moves

theorem shutdown_carries (hn : n.Lawful) {rt : Runtime} (hf : rt.finalized = false)
    (hr : m.host.Holds .active rt.registry) :
    Carries G (ofUnits rt.registry.handles ++ X) m (shutdown n rt) fun _ => X := fun ho =>
  (shutdown_ends (X := X) (G := G) hn hf
    ho.in_hand (Machine.stands_of_holds hr).reads
    fun v hv _ => (Machine.stands_of_holds hr).attached v hv).moves

/-- The first phase leaves no unit in hand, or all units of a registry that may be pending. -/
theorem initAll_carries (hn : n.Lawful) : Carries G X m (initAll n) fun
    | .ok r => ofUnits r.handles ++ X
    | .error _ => X := fun ho => by
  have hdeclares := moves_afterDeclares X m
  have hend := initAll_end hn ho
  generalize (initAll n).after m = m' at hend ⊢
  generalize (initAll n).result m = res at hend ⊢
  cases hend with
  | refused _ hm => rw [hm]; exact .skip _ m ho.host.modules
  | failed _ hd hgone => exact hdeclares.trans (hd.moves.trans (.discardAll _ hgone))
  | done _ hd hs =>
    dsimp only
    rw [hs.reads.handles_eq]
    exact hdeclares.trans hd.moves

theorem holds_of_initAll (hn : n.Lawful) (ho : m.Orderly (units X ++ G))
    (hr : (initAll n).result m = .ok r) :
    ((initAll n).after m).host.Holds .activePending r := by
  have hend := initAll_end hn ho
  rw [hr] at hend
  cases hend with
  | done _ _ hs => exact hs.holds

theorem postInitAll_carries (hn : n.Lawful) (hr : m.host.Holds .activePending r) :
    Carries G (ofUnits r.handles ++ X) m (postInitAll n r) fun
      | .ok r' => ofUnits r'.handles ++ X
      | .error _ => X := fun ho => by
  have hend := postInitAll_end (X := X) (G := G) hn
    ho.in_hand (Machine.stands_of_holds hr)
  generalize (postInitAll n r).after m = m' at hend ⊢
  generalize (postInitAll n r).result m = res at hend ⊢
  cases hend with
  | failed _ _ hd hgone => exact hd.moves.trans (.discardAll _ hgone)
  | done _ hd hs =>
    dsimp only
    rw [hs.reads.handles_eq]
    exact hd.moves

theorem holds_of_postInitAll (hn : n.Lawful) {r' : Registry}
    (ho : m.Orderly (units (ofUnits r.handles ++ X) ++ G))
    (hr : m.host.Holds .activePending r) (hr' : (postInitAll n r).result m = .ok r') :
    ((postInitAll n r).after m).host.Holds .active r' := by
  have hend := postInitAll_end (X := X) (G := G) hn
    ho.in_hand (Machine.stands_of_holds hr)
  rw [hr'] at hend
  cases hend with
  | done _ _ hs => exact hs.holds

end Startup

namespace UnitOp

theorem withRuntime?_carries {α : Type} {f : Runtime → Work α}
    (hf : ∀ r m, r.finalized = false → m.host.Holds .active r.registry →
      Carries G (ofUnits r.registry.handles ++ X) m (f r) fun _ => X) :
    Carries G X m (withRuntime? f) fun _ => X := by
  refine .of_orderly fun ho => .host ?_
  cases hr : m.host.runtime with
  | none => exact .pure
  | some r =>
    have hserves := ho.host.runtime r hr
    refine .modifyHost (.retire hr) (.bind (hf r _ hserves.unfinished ?_) fun _ _ => .pure)
    exact hserves.registry.mono rfl fun _ _ => rfl

theorem dropPending?_carries : Carries G X m dropPending? fun _ => X := by
  refine .host ?_
  cases hr : m.host.pending with
  | none => exact .pure
  | some r =>
    exact .modifyHost (.resume hr) (.bind Startup.releaseAll_carries fun _ _ => .pure)

theorem pending_releaseUnits (vs : List DeclaredUnit) :
    ((vs.forM fun u => Startup.release u.handle : Work Unit).after m).host.pending =
      m.host.pending := by
  induction vs generalizing m with
  | nil => rfl
  | cons v vs ih =>
    refine (ih (m := (Startup.release v.handle).after m)).trans ?_
    unfold Startup.release
    simp only [Work.after_bind, Work.result_host, Work.after_host]
    by_cases h : (m.host.modules.get? v.handle).isSome = true
    · simp only [h, ↓reduceIte]
      rfl
    · simp only [h, Bool.false_eq_true, ↓reduceIte]
      rfl

theorem pending_dropPending? : (dropPending?.after m).host.pending = none := by
  unfold dropPending?
  simp only [Work.after_bind, Work.result_host, Work.after_host]
  cases hr : m.host.pending with
  | none => exact hr
  | some r => exact pending_releaseUnits r.units

/-- The units that were pending go before others become so. -/
theorem suspend_carries {r : Registry} (hr : m.host.Holds .activePending r) :
    Carries G (ofUnits r.handles ++ X) m (suspend r) fun _ => X := fun ho => by
  have hdrop : Carries G (ofUnits r.handles ++ X) m dropPending? fun _ => ofUnits r.handles ++ X :=
    dropPending?_carries
  have hm := hdrop ho
  have hframed : Framed (r.handles ++ (Holding.units X ++ G)) m (dropPending?.after m) :=
    (Moves.orderly (X := []) (dropPending?_carries ho.in_hand) ho.in_hand).2
  have hr' := hr.of_framed hm.around hframed fun x hx => List.mem_append_left _ hx
  exact hm.trans (.suspend pending_dropPending? hr')

theorem after_install (r : Registry) : (Startup.publish r >>= install n).after m =
    (match m.host.runtime with
      | some old => Startup.drop n old
      | none => pure ()).after (m.withHost (m.host.serve r)) := by
  have hbefore : ((Startup.publish r).after m).host.runtime = m.host.runtime := rfl
  rw [Work.after_bind]
  unfold install
  simp only [Work.after_bind, Work.result_host, Work.after_host, hbefore]
  cases m.host.runtime <;> rfl

/-- A runtime takes the place of another one, whose units come into hand. -/
theorem serve_moves {r : Registry} {old : Runtime} (hold : m.host.runtime = some old)
    (hr : m.host.Holds .active r) :
    Moves (ofUnits r.handles ++ X) m (ofUnits old.registry.handles ++ X)
      (m.withHost (m.host.serve r)) := by
  refine .trans (.retire hold) (.trans (.perm ?_)
    (.install (m := m.withHost { m.host with runtime := none }) rfl
      (hr.mono rfl fun _ _ => rfl)))
  exact List.perm_append_comm_assoc ..

/-- A registry is published, and then the runtime that was in use is dropped. -/
theorem install_moves (hn : n.Lawful) {r : Registry} (hr : m.host.Holds .active r)
    (ho : m.Orderly (Holding.units (ofUnits r.handles ++ X) ++ G)) :
    ∃ Z, Moves (ofUnits r.handles ++ X) m Z (m.withHost (m.host.serve r)) ∧
      Moves Z (m.withHost (m.host.serve r)) X ((Startup.publish r >>= install n).after m) := by
  rw [after_install]
  cases hold : m.host.runtime with
  | none => exact ⟨X, .install hold hr, .refl X _⟩
  | some old =>
    have hserves := ho.host.runtime old hold
    have hm := serve_moves (X := X) hold hr
    refine ⟨_, hm, Startup.drop_carries hn hserves.unfinished ?_ (hm.orderly ho).1⟩
    exact hserves.registry.mono rfl fun _ _ => rfl

theorem install_carries (hn : n.Lawful) {r : Registry} (hr : m.host.Holds .active r) :
    Carries G (ofUnits r.handles ++ X) m (Startup.publish r >>= install n) fun _ => X := by
  intro ho
  obtain ⟨Z, h₁, h₂⟩ := install_moves hn hr ho
  exact h₁.trans h₂

/-- The second phase of a startup, and a runtime for what it gives. -/
def complete (n : Nested) (r : Registry) : Work Reply := do
  match ← Startup.postInitAll n r with
  | .error e => return .error (.startup e)
  | .ok r => Startup.publish r >>= install n

theorem perform_start : UnitOp.start.perform n = (do
    match ← Startup.initAll n with
    | .error e => return .error (.startup e)
    | .ok r => complete n r : Work Reply) := by
  simp only [perform, Startup.start, bind_assoc]
  refine congrArg _ (funext fun res => ?_)
  cases res with
  | error e => simp
  | ok r =>
    simp only [bind_assoc, complete]
    refine congrArg _ (funext fun res => ?_)
    cases res <;> simp

theorem complete_carries (hn : n.Lawful) {r : Registry} (hr : m.host.Holds .activePending r) :
    Carries G (ofUnits r.handles ++ X) m (complete n r) fun _ => X := by
  refine .of_orderly fun ho => .bind (Startup.postInitAll_carries hn hr) fun _ _ => ?_
  cases h : (Startup.postInitAll n r).result m with
  | error e => exact .pure
  | ok r' => exact install_carries hn (Startup.holds_of_postInitAll hn ho hr h)

theorem counts_carries : Carries G X m counts fun _ => X := by
  refine .host ?_
  split
  · exact .pure
  · exact .bind (Dispatch.compiledCount_carries _) fun _ _ => .pure

theorem perform_carries (hn : n.Lawful) (op : UnitOp) :
    Carries G X m (op.perform n) fun _ => X := by
  cases op with
  | start =>
    rw [perform_start]
    refine .of_orderly fun ho => .bind (Startup.initAll_carries hn) fun _ _ => ?_
    cases h : (Startup.initAll n).result m with
    | error e => exact .pure
    | ok r => exact complete_carries hn (Startup.holds_of_initAll hn ho h)
  | initAll =>
    refine .of_orderly fun ho => .bind (Startup.initAll_carries hn) fun _ _ => ?_
    cases h : (Startup.initAll n).result m with
    | error e => exact .pure
    | ok r => exact suspend_carries (Startup.holds_of_initAll hn ho h)
  | postInitAll =>
    refine .of_orderly fun ho => .host ?_
    cases hr : m.host.pending with
    | none => exact .pure
    | some r =>
      refine .modifyHost (.resume hr) ?_
      refine Eq.mp (congrArg (Carries _ _ _ · _) ?_) (complete_carries hn ?_)
      · unfold complete
        refine congrArg _ (funext fun res => ?_)
        cases res <;> rfl
      · exact (ho.host.pending r hr).mono rfl fun _ _ => rfl
  | dropPending =>
    refine .bind dropPending?_carries fun _ _ => ?_
    split <;> exact .pure
  | emptyRuntime =>
    have hempty : m.host.Holds .active {} := ⟨(fun _ h => by cases h), by simp⟩
    have hm := install_carries (G := G) (X := X) hn hempty
    exact hm
  | shutdown =>
    refine .bind (withRuntime?_carries fun r m hf hr => Startup.shutdown_carries hn hf hr)
      fun _ _ => ?_
    split <;> exact .pure
  | dropRuntime =>
    refine .bind (withRuntime?_carries fun r m hf hr => Startup.drop_carries hn hf hr)
      fun _ _ => ?_
    split <;> exact .pure
  | describe identifiers => exact .bind counts_carries fun _ _ => .host .pure
  | units | runtime | flags => exact .host .pure

end UnitOp

end AccelHost
