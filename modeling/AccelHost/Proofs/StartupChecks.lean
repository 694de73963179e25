import AccelHost.Proofs.Phases
import AccelHost.Proofs.Registrations

/-!
The checks of a startup, unit by unit. What stands against a unit is listed in the order in which it
is looked at, next to the entries that the unit registers. A phase looks at each unit in the state
in which the units before it leave the machine, and it fails with the first that stands against any.
-/
namespace AccelHost

open Holding

/-- The hook of a unit at an entry point, if its module exports one. -/
def SourceOf.hookOf (s : Source) (point : EntryPoint) (u : DeclaredUnit) :
    Option (UnitHandle → Behaviour Status) :=
  match s.load u.option with
  | .ok mod => mod.hook? point
  | .error _ => none

/-- What stands against the table that a unit exports, after some entries. -/
def tableFaults (unit : String) (before : List Entry) (table : Option ExportTable) :
    List StartupError :=
  match ExportTable.read unit table with
  | .error err => [err]
  | .ok es => Registry.conflicts unit before es

/-- The entries of the table that a unit exports, if it is valid. -/
def tableEntries (u : DeclaredUnit) (table : Option ExportTable) : List Entry :=
  match ExportTable.read u.name table with
  | .error _ => []
  | .ok es => es.map (·.ownedBy u.handle)

namespace ExportTable

variable {unit : String} {es : List Entry}

theorem exists_check_of_checkEntries {index : Nat} {raws : List RawEntry}
    (h : checkEntries unit index raws = .ok es) :
    ∀ e ∈ es, ∃ raw : RawEntry, raw.check unit = .ok e := by
  induction raws generalizing index es with
  | nil =>
    cases h
    exact fun e he => by cases he
  | cons raw raws ih =>
    unfold checkEntries at h
    cases hraw : raw.check unit with
    | error fault => simp [hraw] at h
    | ok first =>
      cases hrest : checkEntries unit (index + 1) raws with
      | error err => simp [hraw, hrest] at h
      | ok rest =>
        simp only [hraw, hrest, Except.ok.injEq] at h
        subst h
        exact List.forall_mem_cons.2 ⟨⟨raw, hraw⟩, ih hrest⟩

theorem exists_check_of_read {table : Option ExportTable}
    (h : ExportTable.read unit table = .ok es) :
    ∀ e ∈ es, ∃ raw : RawEntry, raw.check unit = .ok e := by
  unfold ExportTable.read at h
  split at h
  · cases h
  · split at h
    · cases h
    · split at h
      · cases h
      · split at h
        · cases h
          exact fun e he => by cases he
        · split at h
          · cases h
          · exact exists_check_of_checkEntries h

theorem unit_of_read {table : Option ExportTable} (h : ExportTable.read unit table = .ok es) :
    ∀ e ∈ es, e.unit = unit := fun e he => by
  obtain ⟨raw, hcheck⟩ := exists_check_of_read h e he
  exact RawEntry.unit_of_check hcheck

end ExportTable

namespace Startup

section Checks

variable (n : Nested)

/-- The call of `init`, once the module of the unit is attached. -/
def initCall (r : Registry) (u : DeclaredUnit) (mod : UnitModule)
    (init : UnitHandle → Behaviour Status) : Work HookEnd := do
  callHook n .init init (← attach r u.handle mod) u.handle

def exportsCall (r : Registry) (u : DeclaredUnit) (mod : UnitModule)
    (init : UnitHandle → Behaviour Status) (exports : Behaviour (Option ExportTable)) :
    Work (Option ExportTable) := do
  let e ← initCall n r u mod init
  let _ ← advance e.session.registry u.handle .activePending
  Work.trace (.entered .exports u.handle)
  n.runCode exports

/-- What stands against a unit in the first phase, after some entries: its module is not there or
lacks what it must export; its `init` fails; its table is not valid or conflicts. -/
def initFaults (before : List Entry) (r : Registry) (u : DeclaredUnit) (m : Machine) :
    List StartupError :=
  match m.host.source.load u.option with
  | .error fault => [.moduleNotFound u.option.text fault]
  | .ok mod =>
    (if mod.init.isSome then [] else [.missingEntryPoint u.name .init]) ++
      ((if mod.exports.isSome then [] else [.missingEntryPoint u.name .exports]) ++
      match mod.init, mod.exports with
      | some init, some exports =>
        let e := (initCall n r u mod init).result m
        e.faults u before .init .initFailed ++
          tableFaults u.name (before ++ acceptedEntries u e.calls)
            ((exportsCall n r u mod init exports).result m)
      | _, _ => [])

/-- What a unit registers in the first phase: what its `init` has accepted, and its table. -/
def initEntries (r : Registry) (u : DeclaredUnit) (m : Machine) : List Entry :=
  match m.host.source.load u.option with
  | .error _ => []
  | .ok mod =>
    match mod.init, mod.exports with
    | some init, some exports =>
      acceptedEntries u ((initCall n r u mod init).result m).calls ++
        tableEntries u ((exportsCall n r u mod init exports).result m)
    | _, _ => []

/-- What stands against some units in the first phase, each in its turn. -/
def loadFaults (before : List Entry) (r : Registry) :
    List DeclaredUnit → Machine → List StartupError
  | [], _ => []
  | u :: us, m =>
    initFaults n before r u m ++
      loadFaults (before ++ initEntries n r u m) ((initUnit n r u).result m).2 us
        ((initUnit n r u).after m)

def loadEntries (r : Registry) : List DeclaredUnit → Machine → List Entry
  | [], _ => []
  | u :: us, m =>
    initEntries n r u m ++
      loadEntries ((initUnit n r u).result m).2 us ((initUnit n r u).after m)

/-- What stands against a unit in the second phase: its `post_init` fails, if there is one. -/
def postInitFaults (before : List Entry) (r : Registry) (u : DeclaredUnit) (m : Machine) :
    List StartupError :=
  match m.host.source.hookOf .postInit u with
  | none => []
  | some hook =>
    ((callHook n .postInit hook r u.handle).result m).faults u before .postInit .postInitFailed

def postInitEntries (r : Registry) (u : DeclaredUnit) (m : Machine) : List Entry :=
  match m.host.source.hookOf .postInit u with
  | none => []
  | some hook => acceptedEntries u ((callHook n .postInit hook r u.handle).result m).calls

/-- What stands against some units in the second phase, each in its turn. -/
def completeFaults (before : List Entry) (r : Registry) :
    List DeclaredUnit → Machine → List StartupError
  | [], _ => []
  | u :: us, m =>
    postInitFaults n before r u m ++
      completeFaults (before ++ postInitEntries n r u m) ((postInitUnit n r u.handle).result m).2 us
        ((postInitUnit n r u.handle).after m)

def completeEntries (r : Registry) : List DeclaredUnit → Machine → List Entry
  | [], _ => []
  | u :: us, m =>
    postInitEntries n r u m ++
      completeEntries ((postInitUnit n r u.handle).result m).2 us
        ((postInitUnit n r u.handle).after m)

end Checks

variable {n : Nested} {X : List Holding} {G : List UnitHandle} {us : List DeclaredUnit}
  {σ : UnitHandle → UnitState} {r : Registry} {m : Machine} {u : DeclaredUnit} {es : List Entry}

/-- What a unit came to, by what stood against it and what it registered. -/
structure Settles (faults : List StartupError) (es : List Entry)
    (result : Option StartupError × Registry) : Prop where
  error : result.1 = faults.head?
  collects : faults = [] → result.2.Collects es

/-- Checks one after another: the second is made only if nothing stands against the first. -/
theorem Settles.append {faults faults' : List StartupError} {es es' : List Entry}
    {result : Option StartupError × Registry} (hfirst : faults ≠ [] → result.1 = faults.head?)
    (hrest : faults = [] → Settles faults' (es ++ es') result) :
    Settles (faults ++ faults') (es ++ es') result := by
  cases faults with
  | nil => exact hrest rfl
  | cons err errs => exact ⟨hfirst (List.cons_ne_nil _ _), fun h => by cases h⟩

theorem Settles.andThen {faults faults' : List StartupError} {es es' : List Entry}
    {result : Option StartupError × Registry}
    {next : Registry → Work (Option StartupError × Registry)} :
    Settles faults es result →
    (∀ r, result = (none, r) → r.Collects es → Settles faults' (es ++ es') ((next r).result m)) →
    Settles (faults ++ faults') (es ++ es')
      ((match result with
        | (none, r) => next r
        | (some err, r) => pure (some err, r) :
          Work (Option StartupError × Registry)).result m) := by
  intro hfirst hnext
  obtain ⟨error, r⟩ := result
  have herror : error = faults.head? := hfirst.error
  refine .append (fun hne => ?_) fun hnil => ?_
  · rw [herror, List.head?_eq_some_head hne]
    rfl
  · rw [hnil, List.head?_nil] at herror
    subst herror
    exact hnext r rfl (hfirst.collects hnil)

theorem table_settles {v : DeclaredUnit} (hv : r.unit? u.handle = some v) (hname : v.name = u.name)
    (hc : r.Collects es) (table : Option ExportTable) :
    Settles (tableFaults u.name es table) (es ++ tableEntries u table)
      (match (ExportTable.read u.name table).bind (r.registerEntries u.handle) with
        | .ok r' => (none, r')
        | .error err => (some err, r)) := by
  unfold tableFaults tableEntries
  cases hread : ExportTable.read u.name table with
  | error err => exact ⟨rfl, fun h => by cases h⟩
  | ok batch =>
    have hunit : ∀ e ∈ batch, e.unit = v.name := by
      rw [hname]
      exact ExportTable.unit_of_read hread
    obtain ⟨herror, hok⟩ := Registry.registerEntries_end hv hunit hc
    rw [hname] at herror hok
    change Settles _ _ (match r.registerEntries u.handle batch with
      | .ok r' => (none, r')
      | .error err => (some err, r))
    cases hreg : r.registerEntries u.handle batch with
    | error err =>
      have hfirst := herror err hreg
      refine ⟨hfirst.symm, fun h => ?_⟩
      have hnone : Registry.conflicts u.name es batch = [] := h
      rw [hnone] at hfirst
      cases hfirst
    | ok r' =>
      obtain ⟨hnone, hcollects⟩ := hok r' hreg
      exact ⟨(congrArg List.head? hnone).symm, fun _ => hcollects⟩

theorem initFaults_of_load_error (n : Nested) (r : Registry) (es : List Entry) {err : StartupError}
    (h : load m.host.source u = .error err) :
    (initFaults n es r u m).head? = some err := by
  unfold load at h
  unfold initFaults
  cases hmod : m.host.source.load u.option with
  | error fault =>
    rw [hmod] at h
    cases h
    rfl
  | ok mod =>
    rw [hmod] at h
    cases hinit : mod.init with
    | none =>
      simp only [hinit, Except.error.injEq] at h
      simp [hinit, h]
    | some init =>
      cases hexports : mod.exports with
      | none =>
        simp only [hinit, hexports, Except.error.injEq] at h
        simp [hinit, hexports, h]
      | some exports => simp [hinit, hexports] at h

/-- What stands against a unit that can be loaded, and what it registers. -/
theorem initFaults_of_load_ok (n : Nested) (r : Registry) (es : List Entry) {mod : UnitModule}
    {init : UnitHandle → Behaviour Status} {exports : Behaviour (Option ExportTable)}
    (h : load m.host.source u = .ok (mod, init, exports)) :
    let e := (initCall n r u mod init).result m
    let table := (exportsCall n r u mod init exports).result m
    initFaults n es r u m =
        e.faults u es .init .initFailed ++
          tableFaults u.name (es ++ acceptedEntries u e.calls) table ∧
      initEntries n r u m = acceptedEntries u e.calls ++ tableEntries u table := by
  have hmod := load_eq_ok h
  have hexported : mod.init = some init ∧ mod.exports = some exports := by
    unfold load at h
    rw [hmod] at h
    cases hinit : mod.init <;> cases hexports : mod.exports <;> simp [hinit, hexports] at h
    exact ⟨congrArg some h.1, congrArg some h.2⟩
  simp only [initFaults, initEntries, hmod, hexported, Option.isSome_some, ↓reduceIte,
    List.nil_append, and_self]

theorem result_initUnit {mod : UnitModule} {init : UnitHandle → Behaviour Status}
    {exports : Behaviour (Option ExportTable)}
    (h : load m.host.source u = .ok (mod, init, exports)) :
    let e := (initCall n r u mod init).result m
    let r₁ := e.session.registry.modifyUnit u.handle fun u => { u with state := .activePending }
    (initUnit n r u).result m =
      match e.error? .init u.name .initFailed with
      | some err =>
        (some err, e.session.registry.modifyUnit u.handle fun u => { u with state := .initFailed })
      | none =>
        match (ExportTable.read u.name ((exportsCall n r u mod init exports).result m)).bind
          (r₁.registerEntries u.handle) with
        | .ok r' => (none, r')
        | .error err => (some err, r₁) := by
  intro e r₁
  have htable (x : Except StartupError Registry) (m' : Machine) :
      (match x with
        | .ok r' => pure (none, r')
        | .error err => pure (some err, r₁) : Work (Option StartupError × Registry)).result m' =
      match x with
      | .ok r' => (none, r')
      | .error err => (some err, r₁) := by cases x <;> rfl
  have hcall : (callHook n .init init ((attach r u.handle mod).result m) u.handle).result
      ((attach r u.handle mod).after m) = e := rfl
  unfold initUnit
  simp only [Work.result_bind, Work.result_host, Work.after_host, h, hcall]
  cases e.error? .init u.name .initFailed with
  | some err => rfl
  | none => exact htable _ _

theorem attach_registry (hr : r.Reads us σ) (hu : u ∈ us) (hc : r.Collects es) (mod : UnitModule) :
    ((attach r u.handle mod).result m).Reads us (Function.update σ u.handle .loaded) ∧
      ((attach r u.handle mod).result m).Collects es := by
  obtain ⟨-, -, hr₁⟩ := attach_does (X := []) (m := m) (List.mem_map_of_mem hu) r mod
  rw [hr₁]
  exact ⟨hr.modifyUnit (fun _ => rfl) (fun _ => rfl) fun _ => rfl, hc.modifyUnit⟩

theorem initCall_end (hn : n.Lawful) (ho : m.Orderly (us.map (·.handle) ++ (units X ++ G)))
    (hr : r.Reads us σ) (hown : r.Owned) (hu : u ∈ us) (hs : σ u.handle = .parsed)
    (hc : r.Collects es) {mod : UnitModule} (hmod : m.host.source.load u.option = .ok mod)
    (init : UnitHandle → Behaviour Status) :
    let e := (initCall n r u mod init).result m
    e.session.registry.Reads us (Function.update σ u.handle .loaded) ∧
      e.session.registry.Collects (es ++ acceptedEntries u e.calls) ∧
      e.error? .init u.name .initFailed = (e.faults u es .init .initFailed).head? := by
  have hnodup := ho.nodup
  have hx : u.handle ∈ us.map (·.handle) := List.mem_map_of_mem hu
  obtain ⟨-, -, hreads, -⟩ := begun_does (X := X) hn ho hr hown hu hs hmod init
  obtain ⟨hd₁, -, -⟩ := attach_does (X := X) (m := m) hx r mod
  obtain ⟨hreads₁, hc₁⟩ := attach_registry (m := m) hr hu hc mod
  obtain ⟨v, hv, hoption, -⟩ := hreads₁.unit? hnodup hu
  have hname : v.name = u.name := congrArg UnitOption.displayName hoption
  exact ⟨hreads, callHook_registrations hn (hd₁.orderly ho) .init init ⟨v, hv, hname⟩ hc₁
    .initFailed⟩

theorem initUnit_settles (hn : n.Lawful)
    (ho : m.Orderly (us.map (·.handle) ++ (units X ++ G))) (hr : r.Reads us σ) (hown : r.Owned)
    (hu : u ∈ us) (hs : σ u.handle = .parsed) (hc : r.Collects es) :
    Settles (initFaults n es r u m) (es ++ initEntries n r u m) ((initUnit n r u).result m) := by
  have hnodup := ho.nodup
  cases hload : load m.host.source u with
  | error err =>
    have hfirst := initFaults_of_load_error n r es hload
    unfold initUnit
    simp only [Work.result_bind, Work.result_host, Work.after_host, hload, Work.result_pure]
    refine ⟨hfirst.symm, fun hnil => ?_⟩
    rw [hnil] at hfirst
    cases hfirst
  | ok loaded =>
    obtain ⟨mod, init, exports⟩ := loaded
    obtain ⟨hreads, hcollects, herror⟩ :=
      initCall_end hn ho hr hown hu hs hc (load_eq_ok hload) init
    obtain ⟨hfaults, hentries⟩ := initFaults_of_load_ok n r es hload
    rw [hfaults, hentries, ← List.append_assoc, result_initUnit hload, herror]
    refine .append (fun hne => ?_) fun hnil => ?_
    · rw [List.head?_eq_some_head hne]
    · rw [hnil, List.head?_nil]
      have hpending := (advance_reads (X := X) (m := m) hreads hnodup hu .activePending).2
      obtain ⟨v, hv, hoption, -⟩ := hpending.unit? hnodup hu
      have hname : v.name = u.name := congrArg UnitOption.displayName hoption
      exact table_settles hv hname hcollects.modifyUnit _

/-- The first phase of some units. -/
theorem initUnits_settles (hn : n.Lawful) (vs : List DeclaredUnit)
    (h : Awaits (units X ++ G) us vs .parsed σ r m) (hc : r.Collects es) :
    Settles (loadFaults n es r vs m) (es ++ loadEntries n r vs m)
      ((initUnits n r vs).result m) := by
  induction vs generalizing r σ m es with
  | nil => exact ⟨rfl, fun _ => by rw [loadEntries, List.append_nil]; exact hc⟩
  | cons v vs ih =>
    have hfirst := initUnit_settles hn h.orderly h.reads h.owned h.head_mem h.head_state hc
    have hnext (r' : Registry) (hres : (initUnit n r v).result m = (none, r')) :=
      h.next hn hres
    simp only [loadFaults, loadEntries, initUnits, Work.result_bind, ← List.append_assoc]
    generalize (initUnit n r v).result m = res at hfirst hnext ⊢
    refine hfirst.andThen fun r₁ hres hc₁ => ?_
    subst hres
    exact ih (hnext r₁ rfl).1 hc₁

theorem postInitUnit_settles (hn : n.Lawful)
    (ho : m.Orderly (us.map (·.handle) ++ (units X ++ G))) (hr : r.Reads us σ)
    (hu : u ∈ us) (ha : m.Attached u) (hc : r.Collects es) :
    Settles (postInitFaults n es r u m) (es ++ postInitEntries n r u m)
      ((postInitUnit n r u.handle).result m) := by
  have hnodup := ho.nodup
  obtain ⟨v, hv, hoption, -⟩ := hr.unit? hnodup hu
  have hname : v.name = u.name := congrArg UnitOption.displayName hoption
  obtain ⟨mod, hload, hmod⟩ := ha
  have hhook : m.host.source.hookOf .postInit u = mod.postInit := by
    simp only [SourceOf.hookOf, hload, ModuleOf.hook?]
  unfold postInitUnit postInitFaults postInitEntries
  simp only [hv, hname, hmod, hhook, Work.result_bind, Work.result_host, Work.after_host,
    Option.map_some, Option.getD_some, Option.bind_some]
  cases mod.postInit with
  | none => exact ⟨rfl, fun _ => by rw [List.append_nil]; exact hc.modifyUnit⟩
  | some hook =>
    obtain ⟨hcollects, herror⟩ :=
      callHook_registrations hn ho .postInit hook ⟨v, hv, hname⟩ hc .postInitFailed
    simp only [Work.result_bind]
    generalize (callHook n .postInit hook r u.handle).result m = e at hcollects herror ⊢
    rw [herror]
    cases hfaults : e.faults u es .postInit .postInitFailed with
    | cons err errs => exact ⟨rfl, fun h => by cases h⟩
    | nil => exact ⟨rfl, fun _ => hcollects.modifyUnit⟩

/-- The second phase of some units. -/
theorem postInitUnits_settles (hn : n.Lawful) (vs : List DeclaredUnit)
    (h : Awaits (units X ++ G) us vs .activePending σ r m) (ha : ∀ v ∈ vs, m.Attached v)
    (hc : r.Collects es) :
    Settles (completeFaults n es r vs m) (es ++ completeEntries n r vs m)
      ((postInitUnits n r (vs.map (·.handle))).result m) := by
  induction vs generalizing r σ m es with
  | nil => exact ⟨rfl, fun _ => by rw [completeEntries, List.append_nil]; exact hc⟩
  | cons v vs ih =>
    have hfirst := postInitUnit_settles hn h.orderly h.reads h.head_mem (ha v (by simp)) hc
    have hnext (r' : Registry) (hres : (postInitUnit n r v.handle).result m = (none, r')) :=
      h.nextPostInit hn ha hres
    simp only [completeFaults, completeEntries, List.map_cons, postInitUnits, Work.result_bind,
      ← List.append_assoc]
    generalize (postInitUnit n r v.handle).result m = res at hfirst hnext ⊢
    refine hfirst.andThen fun r₁ hres hc₁ => ?_
    subst hres
    obtain ⟨hawaits, hattached, -⟩ := hnext r₁ rfl
    exact ih hawaits hattached hc₁

end Startup

end AccelHost
