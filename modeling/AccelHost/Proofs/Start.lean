import AccelHost.Proofs.Phases

/-!
Whole startups. Which units a startup declares is settled by its options and the next handle alone;
what it tells about them ends in failure, with every module released, or with all units active.
-/
namespace AccelHost

open Holding

/-- The units of some options, by handles from some number on. -/
def declared (next : UnitHandle) : List UnitOption → List DeclaredUnit
  | [] => []
  | option :: rest => { handle := next, option } :: declared (next + 1) rest

theorem le_of_mem_declared {next : UnitHandle} {options : List UnitOption} {u : DeclaredUnit}
    (hu : u ∈ declared next options) : next ≤ u.handle := by
  induction options generalizing next with
  | nil => cases hu
  | cons o os ih =>
    rcases List.mem_cons.1 hu with rfl | hu
    · exact Nat.le_refl _
    · exact Nat.le_of_succ_le (ih hu)

theorem reads_declared {r : Registry} {next : UnitHandle} {options : List UnitOption}
    (hr : r.units = declared next options) :
    r.Reads (declared next options) fun _ => .parsed := by
  rw [Registry.Reads, hr]
  clear hr
  induction options generalizing next with
  | nil => rfl
  | cons o os ih => simp [declared, ih]

theorem length_declared (next : UnitHandle) (options : List UnitOption) :
    (declared next options).length = options.length := by
  induction options generalizing next with
  | nil => rfl
  | cons o os ih => simp [declared, ih]

theorem map_option_declared (next : UnitHandle) (options : List UnitOption) :
    (declared next options).map (·.option) = options := by
  induction options generalizing next with
  | nil => rfl
  | cons o os ih => exact congrArg (o :: ·) (ih (next + 1))

/-- The units that a startup declares: none if it is off or refuses its options. -/
def Machine.declares (m : Machine) : List DeclaredUnit :=
  if m.host.settings.enabled then
    match Startup.parseAll m.host.settings.units with
    | .ok options =>
      if (options.map (·.feature)).Nodup then declared m.nextHandle options else []
    | .error _ => []
  else []

namespace Machine

def afterDeclares (m : Machine) : Machine :=
  { m with nextHandle := m.nextHandle + m.declares.length }

theorem exists_declares (m : Machine) :
    ∃ options, m.declares = declared m.nextHandle options ∧
      (options = [] ∨ Startup.parseAll m.host.settings.units = .ok options) := by
  unfold declares
  split
  · split
    · rename_i options hp
      split
      · exact ⟨options, rfl, .inr hp⟩
      · exact ⟨[], rfl, .inl rfl⟩
    · exact ⟨[], rfl, .inl rfl⟩
  · exact ⟨[], rfl, .inl rfl⟩

theorem mem_declares {m : Machine} {u : DeclaredUnit} (hu : u ∈ m.declares) :
    m.nextHandle ≤ u.handle := by
  obtain ⟨options, hdecl, -⟩ := m.exists_declares
  rw [hdecl] at hu
  exact le_of_mem_declared hu

/-- A registry of some units that all are in one state and have their modules. -/
structure Stands (m : Machine) (us : List DeclaredUnit) (state : UnitState) (r : Registry) :
    Prop where
  reads : r.Reads us fun _ => state
  owned : r.Owned
  attached : ∀ v ∈ us, m.Attached v

theorem Stands.holds {m : Machine} {us : List DeclaredUnit} {state : UnitState} {r : Registry}
    (h : m.Stands us state r) : m.host.Holds state r := by
  refine ⟨h.owned, fun u hu => ?_⟩
  have hmem := List.mem_map_of_mem (f := fun u => (u.handle, u.option, u.state)) hu
  rw [h.reads] at hmem
  obtain ⟨v, hv, he⟩ := List.mem_map.1 hmem
  simp only [Prod.mk.injEq] at he
  obtain ⟨mod, hl, hm⟩ := h.attached v hv
  exact ⟨he.2.2.symm, mod, by rw [← he.2.1, hl], by rw [← he.1, hm]⟩

theorem stands_of_holds {m : Machine} {state : UnitState} {r : Registry}
    (h : m.host.Holds state r) : m.Stands r.units state r where
  reads := List.map_congr_left fun u hu => by rw [(h.2 u hu).1]
  owned := h.1
  attached u hu := (h.2 u hu).2

end Machine

namespace Moves

theorem declareAll {X : List Holding} (options : List UnitOption) (m : Machine) :
    Moves X m (ofUnits ((declared m.nextHandle options).map (·.handle)) ++ X)
      { m with nextHandle := m.nextHandle + options.length } := by
  induction options generalizing X m with
  | nil => exact .refl X m
  | cons o os ih =>
    have hm := ih (X := .unit m.nextHandle :: X) { m with nextHandle := m.nextHandle + 1 }
    refine .trans .declare ?_
    rw [List.length_cons, Nat.add_comm os.length, ← Nat.add_assoc]
    exact hm.trans (.perm List.perm_middle)

/-- Handles that are given to no unit. -/
theorem skip {X : List Holding} (k : Nat) (m : Machine)
    (h : ∀ x, m.nextHandle ≤ x → m.host.modules.get? x = none) :
    Moves X m X { m with nextHandle := m.nextHandle + k } := by
  induction k generalizing m with
  | zero => exact .refl X m
  | succ k ih =>
    have hm := ih { m with nextHandle := m.nextHandle + 1 } fun x hx => h x (Nat.le_of_succ_le hx)
    rw [Nat.add_comm k, ← Nat.add_assoc]
    exact .trans (.trans .declare (.discard (h _ (Nat.le_refl _)))) hm

end Moves

namespace Registry

theorem register_eq_ok {r : Registry} {option : UnitOption} {x : UnitHandle}
    (h : option.feature ∉ r.units.map (·.option.feature)) :
    r.register option x = .ok { r with units := r.units ++ [{ handle := x, option }] } := by
  unfold register
  split
  · rename_i u hu
    exact absurd (List.mem_map.2 ⟨u, List.mem_of_find?_eq_some hu, by
      simpa using List.find?_some hu⟩) h
  · rfl

theorem register_eq_error {r : Registry} {option : UnitOption} {x : UnitHandle}
    (h : option.feature ∈ r.units.map (·.option.feature)) :
    ∃ e, r.register option x = .error e := by
  unfold register
  split
  · exact ⟨_, rfl⟩
  · rename_i hn
    obtain ⟨u, hu, he⟩ := List.mem_map.1 h
    exact absurd he (by simpa using List.find?_eq_none.1 hn u hu)

end Registry

namespace Startup

variable {m : Machine} {r : Registry}

theorem declareAll_cons {option : UnitOption} {rest : List UnitOption}
    (h : option.feature ∉ r.units.map (·.option.feature)) :
    let r' : Registry := { r with units := r.units ++ [{ handle := m.nextHandle, option }] }
    let m' : Machine := { m with nextHandle := m.nextHandle + 1 }
    (declareAll r (option :: rest)).result m = (declareAll r' rest).result m' ∧
      (declareAll r (option :: rest)).after m = (declareAll r' rest).after m' := by
  unfold Work.result Work.after
  simp only [declareAll, StateT.run_bind, StateT.run_get, pure_bind, Registry.register_eq_ok h]
  exact ⟨rfl, rfl⟩

theorem declareAll_of_nodup (options : List UnitOption)
    (h : (r.units.map (·.option.feature) ++ options.map (·.feature)).Nodup) :
    (declareAll r options).result m =
        .ok { r with units := r.units ++ declared m.nextHandle options } ∧
      (declareAll r options).after m =
        { m with nextHandle := m.nextHandle + options.length } := by
  induction options generalizing r m with
  | nil => simp [declareAll, declared]
  | cons o os ih =>
    have hnew : o.feature ∉ r.units.map (·.option.feature) := fun hm =>
      (List.nodup_append.1 h).2.2 _ hm _ (by simp) rfl
    obtain ⟨hres, haft⟩ := declareAll_cons (m := m) hnew
    obtain ⟨hok, hm⟩ := ih (m := { m with nextHandle := m.nextHandle + 1 })
      (r := { r with units := r.units ++ [{ handle := m.nextHandle, option := o }] })
      (by simpa [List.append_assoc] using h)
    refine ⟨?_, ?_⟩
    · rw [hres, hok]
      simp [declared, List.append_assoc]
    · rw [haft, hm]
      simp [Nat.add_assoc, Nat.add_comm 1]

theorem declareAll_of_not_nodup (options : List UnitOption)
    (h : ¬(r.units.map (·.option.feature) ++ options.map (·.feature)).Nodup)
    (hr : (r.units.map (·.option.feature)).Nodup) :
    ∃ e k, (declareAll r options).result m = .error e ∧
      (declareAll r options).after m = { m with nextHandle := m.nextHandle + k } := by
  induction options generalizing r m with
  | nil => simp [hr] at h
  | cons o os ih =>
    by_cases hnew : o.feature ∈ r.units.map (·.option.feature)
    · obtain ⟨e, he⟩ := Registry.register_eq_error (x := m.nextHandle) hnew
      refine ⟨e, 0, ?_⟩
      unfold Work.result Work.after
      simp only [declareAll, StateT.run_bind, StateT.run_get, pure_bind, he]
      exact ⟨rfl, rfl⟩
    · obtain ⟨hres, haft⟩ := declareAll_cons (m := m) hnew
      rw [hres, haft]
      have hnodup : (r.units.map (·.option.feature) ++ [o.feature]).Nodup := by
        rw [List.nodup_append]
        refine ⟨hr, by simp, fun a ha b hb he => hnew ?_⟩
        rw [← List.mem_singleton.1 hb, ← he]
        exact ha
      obtain ⟨e, k, he, hm⟩ := ih (m := { m with nextHandle := m.nextHandle + 1 })
        (r := { r with units := r.units ++ [{ handle := m.nextHandle, option := o }] })
        (by simpa [List.append_assoc] using h) (by simpa using hnodup)
      exact ⟨e, 1 + k, he, by rw [hm, Nat.add_assoc]⟩

/-- How the first phase of a startup ends. -/
inductive InitAllEnd (X : List Holding) (m m' : Machine) : Except StartupError Registry → Prop where
  | refused {e : StartupError} {k : Nat} :
      (∀ options, parseAll m.host.settings.units = .ok options →
        ¬(options.map (·.feature)).Nodup) →
      m' = { m with nextHandle := m.nextHandle + k } → InitAllEnd X m m' (.error e)
  | failed {e : StartupError} {es : List TraceEvent} : Loading m.declares es false →
      Does X (m.declares.map (·.handle))
        (es ++ (m.declares.filter fun u => .attached u.handle ∈ es).map (.released ·.handle))
        m.afterDeclares m' →
      (∀ x ∈ m.declares.map (·.handle), m'.host.modules.get? x = none) →
      InitAllEnd X m m' (.error e)
  | done {r : Registry} {es : List TraceEvent} : Loading m.declares es true →
      Does X (m.declares.map (·.handle)) es m.afterDeclares m' →
      m'.Stands m.declares .activePending r → InitAllEnd X m m' (.ok r)

variable {n : Nested} {X : List Holding} {G : List UnitHandle} {us : List DeclaredUnit}
  {σ : UnitHandle → UnitState}

theorem present_of_loading {es : List TraceEvent} {done : Bool} {m₁ m₂ : Machine}
    (h : Loading us es done) (hd : Does X (us.map (·.handle)) es m₁ m₂) (hk : Keeps us es m₂)
    (hnone : ∀ x ∈ us.map (·.handle), m₁.host.modules.get? x = none) :
    present m₂ (us.map (·.handle)) =
      (us.filter fun u => .attached u.handle ∈ es).map (·.handle) := by
  rw [present, List.filter_map]
  refine congrArg (List.map _) (List.filter_congr fun u hu => ?_)
  by_cases ha : .attached u.handle ∈ es
  · obtain ⟨mod, _, hm⟩ := hk u hu ha
    simp [ha, hm]
  · have hx : u.handle ∈ us.map (·.handle) := List.mem_map_of_mem hu
    simp [ha, hd.kept _ hx ha (h.released_not_mem _), hnone _ hx]

theorem finalizing_nil {src : Source} {es : List TraceEvent} {names : List String}
    {failures : List (String × String)} (h : Finalizing src [] es names failures) : es = [] := by
  cases h
  rfl

theorem loadAll_end (hn : n.Lawful)
    (ho : m.afterDeclares.Orderly (m.declares.map (·.handle) ++ (units X ++ G)))
    (hnone : ∀ x ∈ m.declares.map (·.handle), m.host.modules.get? x = none)
    (hunits : r.units = m.declares) (hr : r.Reads m.declares fun _ => .parsed) (hown : r.Owned) :
    InitAllEnd X m ((loadAll n r).after m.afterDeclares)
      ((loadAll n r).result m.afterDeclares) := by
  obtain ⟨es, σ', hd, hload, hreads, hact, hkeeps, hdone⟩ :=
    initUnits_does hn m.declares (.all ho hr hown) fun _ _ => by simp
  have hpresent := present_of_loading hload hd hkeeps hnone
  unfold loadAll
  simp only [hunits, Work.result_bind, Work.after_bind]
  generalize (initUnits n r m.declares).after m.afterDeclares = m₂ at hd hkeeps hpresent ⊢
  generalize (initUnits n r m.declares).result m.afterDeclares = res at hload hreads hdone ⊢
  obtain ⟨error, r₂⟩ := res
  cases error with
  | none =>
    obtain ⟨hown₂, _, hpending⟩ := hdone rfl
    refine .done hload hd ⟨?_, hown₂, fun v hv => hkeeps v hv (hload.attached_of_done rfl hv)⟩
    rw [Registry.Reads, hreads]
    exact List.map_congr_left fun v hv => by rw [hpending v hv]
  | some e =>
    obtain ⟨report, es', hfin, hd', hgone⟩ := abort_ends (X := X) hn (hd.orderly ho) hreads
      fun v hv h => absurd h (hact v hv)
    have hnil : m.declares.filter (fun v => σ' v.handle = .active) = [] :=
      List.filter_eq_nil_iff.2 fun v hv => by simpa using hact v hv
    rw [hnil] at hfin
    rw [finalizing_nil hfin, List.nil_append, hpresent, List.map_map] at hd'
    exact .failed hload (hd.trans hd') hgone

/-- A startup declares new units, which have no modules, and holds them then. -/
theorem orderly_afterDeclares (ho : m.Orderly (units X ++ G))
    (hm : Moves X m (ofUnits (m.declares.map (·.handle)) ++ X) m.afterDeclares) :
    m.afterDeclares.Orderly (m.declares.map (·.handle) ++ (units X ++ G)) ∧
      ∀ x ∈ m.declares.map (·.handle), m.host.modules.get? x = none := by
  refine ⟨by simpa [List.append_assoc] using (hm.orderly ho).1, fun x hx => ?_⟩
  obtain ⟨u, hu, rfl⟩ := List.mem_map.1 hx
  exact ho.host.modules _ (Machine.mem_declares hu)

theorem declares_eq {options : List UnitOption} (he : m.host.settings.enabled = true)
    (hp : parseAll m.host.settings.units = .ok options)
    (hd : (options.map (·.feature)).Nodup) : m.declares = declared m.nextHandle options := by
  simp [Machine.declares, he, hp, hd]

theorem declares_of_refused (h : ∀ options, parseAll m.host.settings.units = .ok options →
    ¬(options.map (·.feature)).Nodup) : m.declares = [] := by
  unfold Machine.declares
  split
  · split
    · rename_i options hp
      simp only [h options hp, ↓reduceIte]
    · rfl
  · rfl

theorem moves_afterDeclares (X : List Holding) (m : Machine) :
    Moves X m (ofUnits (m.declares.map (·.handle)) ++ X) m.afterDeclares := by
  obtain ⟨options, hdecl, -⟩ := m.exists_declares
  rw [Machine.afterDeclares, hdecl, length_declared]
  exact .declareAll options m

/-- What the first phase of a startup comes to: its options are refused, it is off, or the units
that it declares are loaded. -/
inductive InitAllCases (n : Nested) (m : Machine) : Prop where
  | refused {e : StartupError} {k : Nat} :
      (∀ options, parseAll m.host.settings.units = .ok options →
        ¬(options.map (·.feature)).Nodup) →
      (initAll n).result m = .error e →
      (initAll n).after m = { m with nextHandle := m.nextHandle + k } → InitAllCases n m
  | off : m.host.settings.enabled = false → (initAll n).result m = .ok {} →
      (initAll n).after m = m → InitAllCases n m
  | loaded {options : List UnitOption} : parseAll m.host.settings.units = .ok options →
      (options.map (·.feature)).Nodup → m.declares = declared m.nextHandle options →
      (initAll n).result m = (loadAll n { units := m.declares }).result m.afterDeclares →
      (initAll n).after m = (loadAll n { units := m.declares }).after m.afterDeclares →
      InitAllCases n m

theorem initAll_cases (n : Nested) (m : Machine) : InitAllCases n m := by
  by_cases he : m.host.settings.enabled = true
  · cases hp : parseAll m.host.settings.units with
    | error e =>
      refine .refused (e := e) (k := 0) (fun options h => by rw [hp] at h; cases h) ?_ ?_ <;>
        simp only [initAll, Work.result_bind, Work.after_bind, Work.result_host, Work.after_host,
          he,
          hp, Bool.not_true, Bool.false_eq_true, ↓reduceIte] <;> rfl
    | ok options =>
      by_cases hd : (options.map (·.feature)).Nodup
      · have hdecl := declares_eq he hp hd
        obtain ⟨hres, haft⟩ := declareAll_of_nodup (m := m) (r := {}) options (by simpa using hd)
        have hafter : (declareAll {} options).after m = m.afterDeclares := by
          rw [haft, Machine.afterDeclares, hdecl, length_declared]
        rw [List.nil_append, ← hdecl] at hres
        refine .loaded hp hd hdecl ?_ ?_ <;>
          simp only [initAll, Work.result_bind, Work.after_bind, Work.result_host, Work.after_host,
            he, hp, hres, hafter, Bool.not_true, Bool.false_eq_true, ↓reduceIte]
      · obtain ⟨e, k, hres, haft⟩ :=
          declareAll_of_not_nodup (m := m) (r := {}) options (by simpa using hd) (by simp)
        have hrefused : ∀ options', parseAll m.host.settings.units = .ok options' →
            ¬(options'.map (·.feature)).Nodup := fun options' h => by
          rw [hp] at h
          cases h
          exact hd
        refine .refused (e := e) (k := k) hrefused ?_ ?_ <;>
          simp only [initAll, Work.result_bind, Work.after_bind, Work.result_host, Work.after_host,
            he, hp, hres, haft, Bool.not_true, Bool.false_eq_true, ↓reduceIte] <;> rfl
  · have hoff : m.host.settings.enabled = false := by simpa using he
    refine .off hoff ?_ ?_ <;>
      simp only [initAll, Work.result_bind, Work.after_bind, Work.result_host, Work.after_host,
        hoff,
        Bool.not_false, ↓reduceIte] <;> rfl

theorem declares_of_off (h : m.host.settings.enabled = false) :
    m.declares = [] ∧ m.afterDeclares = m := by
  have hnil : m.declares = [] := by simp [Machine.declares, h]
  exact ⟨hnil, by simp [Machine.afterDeclares, hnil]⟩

theorem initAll_end (hn : n.Lawful) (ho : m.Orderly (units X ++ G)) :
    InitAllEnd X m ((initAll n).after m) ((initAll n).result m) := by
  obtain ⟨ho₁, hnone⟩ := orderly_afterDeclares ho (moves_afterDeclares X m)
  cases initAll_cases n m with
  | refused hrefused hres haft =>
    rw [hres, haft]
    exact .refused hrefused rfl
  | off hoff hres haft =>
    obtain ⟨hnil, hm⟩ := declares_of_off hoff
    rw [hres, haft]
    have hl : Loading m.declares [] true := by rw [hnil]; exact .nil
    refine .done hl (by rw [hm]; exact .refl X _ m) ?_
    rw [hnil]
    exact ⟨rfl, (fun _ h => by cases h), by simp⟩
  | loaded hp hd hdecl hres haft =>
    rw [hres, haft]
    refine loadAll_end hn ho₁ hnone rfl ?_ (fun _ h => by cases h)
    rw [hdecl]
    exact reads_declared rfl

/-- How the second phase of a startup ends. -/
inductive PostInitAllEnd (X : List Holding) (us : List DeclaredUnit) (m m' : Machine) :
    Except StartupError Registry → Prop where
  | failed {e : StartupError} {active : List DeclaredUnit} {es fs : List TraceEvent}
      {report : ShutdownReport} : Completing m.host.source us es active false →
      Finalizing m.host.source active fs report.finalized report.failures →
      Does X (us.map (·.handle)) (es ++ (fs ++ us.map (.released ·.handle))) m m' →
      (∀ x ∈ us.map (·.handle), m'.host.modules.get? x = none) →
      PostInitAllEnd X us m m' (.error e)
  | done {r : Registry} {es : List TraceEvent} : Completing m.host.source us es us true →
      Does X (us.map (·.handle)) es m m' → m'.Stands us .active r →
      PostInitAllEnd X us m m' (.ok r)

theorem active_eq_of_done {src : Source} {active : List DeclaredUnit} {es : List TraceEvent}
    {done : Bool} (h : Completing src us es active done) (hd : done = true) : active = us := by
  induction h with
  | nil => rfl
  | bare _ _ ih => rw [ih hd]
  | failed => cases hd
  | hook _ _ ih => rw [ih hd]

theorem present_of_attached (h : ∀ v ∈ us, m.Attached v) :
    present m (us.map (·.handle)) = us.map (·.handle) := by
  refine List.filter_eq_self.2 fun x hx => ?_
  obtain ⟨v, hv, rfl⟩ := List.mem_map.1 hx
  obtain ⟨mod, _, hm⟩ := h v hv
  simp [hm]

theorem postInitAll_end (hn : n.Lawful) (ho : m.Orderly (us.map (·.handle) ++ (units X ++ G)))
    (hr : m.Stands us .activePending r) :
    PostInitAllEnd X us m ((postInitAll n r).after m) ((postInitAll n r).result m) := by
  have hmap : r.units.map (·.handle) = us.map (·.handle) := hr.reads.handles_eq
  obtain ⟨es, σ', active, hd, hcomp, hreads, _, hfilter, hown⟩ :=
    postInitUnits_does hn us (.all ho hr.reads hr.owned) hr.attached
  unfold postInitAll
  simp only [hmap, Work.result_bind, Work.after_bind]
  generalize (postInitUnits n r (us.map (·.handle))).after m = m₁ at hd ⊢
  generalize (postInitUnits n r (us.map (·.handle))).result m = res at hcomp hreads hown ⊢
  have hattached : ∀ v ∈ us, m₁.Attached v := fun v hv =>
    hd.attached (List.mem_map_of_mem hv) (hr.attached v hv) (hcomp.plain _)
  obtain ⟨error, r₁⟩ := res
  cases error with
  | none =>
    have hall := active_eq_of_done hcomp rfl
    rw [hall] at hcomp hfilter
    refine .done hcomp hd ⟨?_, hown rfl, hattached⟩
    rw [Registry.Reads, hreads]
    refine List.map_congr_left fun v hv => ?_
    rw [← hfilter] at hv
    rw [of_decide_eq_true (List.mem_filter.1 hv).2]
  | some e =>
    obtain ⟨report, fs, hfin, hd', hgone⟩ := abort_ends (X := X) hn (hd.orderly ho) hreads
      fun v hv _ => hattached v hv
    rw [hfilter, hd.moves.around.source] at hfin
    rw [present_of_attached hattached, List.map_map] at hd'
    exact .failed hcomp hfin (hd.trans hd') hgone

end Startup

end AccelHost
