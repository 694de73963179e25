import AccelHost.Proofs.Conduct
import AccelHost.Proofs.StartupOutcome

/-!
Profiles of units that keep to themselves. A profile says what a unit registers in each phase and
whether it passes as far as it is concerned. A startup comes to no more than that: nothing stands
against it if all its units are sound and their entries agree.
-/
namespace AccelHost

/-- How a unit keeps to itself: the conduct of its hooks and the table that it exports, as far as it
has them. -/
structure Profile where
  init : Option Conduct := none
  postInit : Option Conduct := none
  exports : Option (Option ExportTable) := none

namespace Profile

/-- A module with the hooks of a profile, whose table is the same whenever it is read. -/
structure Describes (p : Profile) (mod : UnitModule) : Prop where
  init : mod.init = p.init.map Conduct.hook
  postInit : mod.postInit = p.postInit.map Conduct.hook
  exports : Option.Rel (fun (code : Behaviour (Option ExportTable)) table =>
    ∀ (n : Nested) (m : Machine), (n.runCode code).result m = table) mod.exports p.exports

def toModule (p : Profile) (location : String) : UnitModule where
  location
  init := p.init.map Conduct.hook
  postInit := p.postInit.map Conduct.hook
  exports := p.exports.map .done

theorem describes_toModule (p : Profile) (location : String) :
    p.Describes (p.toModule location) where
  init := rfl
  postInit := rfl
  exports := by
    unfold toModule
    cases p.exports with
    | none => exact .none
    | some table => exact .some fun _ _ => rfl

section Ideal

variable (vmVersion : String) (o : UnitOption) (p : Profile)

def tableEntries (table : Option ExportTable) : List Entry :=
  (ExportTable.read o.displayName table).toOption.getD []

def firstEntries : List Entry :=
  p.init.toList.flatMap (·.entries vmVersion o) ++ p.exports.toList.flatMap (tableEntries o)

def secondEntries : List Entry := p.postInit.toList.flatMap (·.entries vmVersion o)

/-- A unit that passes the first phase if no other is in its way. -/
structure SoundFirst (src : Source) : Prop where
  found : ∃ mod, src.load o = .ok mod
  init : ∃ c, p.init = some c ∧ c.Sound vmVersion o
  exports : ∃ table es, p.exports = some table ∧ ExportTable.read o.displayName table = .ok es

/-- A unit that passes the second phase if no other is in its way. -/
def SoundSecond : Prop := ∀ c, p.postInit = some c → c.Sound vmVersion o

variable {vmVersion o p} {e : Entry}

theorem unit_of_mem_tableEntries {table : Option ExportTable} (he : e ∈ tableEntries o table) :
    e.unit = o.displayName := by
  unfold tableEntries at he
  cases hread : ExportTable.read o.displayName table with
  | error err =>
    rw [hread] at he
    cases he
  | ok es =>
    rw [hread] at he
    exact ExportTable.unit_of_read hread e he

theorem unit_of_mem_firstEntries (he : e ∈ p.firstEntries vmVersion o) :
    e.unit = o.displayName := by
  rcases List.mem_append.1 he with hinit | hexports
  · obtain ⟨c, -, hc⟩ := List.mem_flatMap.1 hinit
    exact c.unit_of_mem_entries hc
  · obtain ⟨table, -, htable⟩ := List.mem_flatMap.1 hexports
    exact unit_of_mem_tableEntries htable

theorem unit_of_mem_secondEntries (he : e ∈ p.secondEntries vmVersion o) :
    e.unit = o.displayName := by
  obtain ⟨c, -, hc⟩ := List.mem_flatMap.1 he
  exact c.unit_of_mem_entries hc

end Ideal

theorem soundFirst_iff {vmVersion : String} {o : UnitOption} {p : Profile} {src : Source}
    {mod : UnitModule} {c : Conduct} {table : Option ExportTable} (hload : src.load o = .ok mod)
    (hinit : p.init = some c) (hexports : p.exports = some table) :
    p.SoundFirst vmVersion o src ↔
      c.Sound vmVersion o ∧ ∃ es, ExportTable.read o.displayName table = .ok es := by
  constructor
  · rintro ⟨-, ⟨c', hc', hsound⟩, table', es, htable', hread⟩
    rw [hinit] at hc'
    rw [hexports] at htable'
    cases hc'
    cases htable'
    exact ⟨hsound, es, hread⟩
  · rintro ⟨hsound, es, hread⟩
    exact ⟨⟨mod, hload⟩, ⟨c, hinit, hsound⟩, table, es, hexports, hread⟩

end Profile

namespace Startup

variable {n : Nested} {G : List UnitHandle} {m : Machine} {us : List DeclaredUnit}
  {σ : UnitHandle → UnitState} {r : Registry} {u : DeclaredUnit} {es : List Entry} {p : Profile}

/-! ### One unit -/

theorem table_contributes (u : DeclaredUnit) (table : Option ExportTable)
    (hes : es.Pairwise Entry.Agrees) :
    Contributes (∃ fs, ExportTable.read u.name table = .ok fs)
      (Profile.tableEntries u.option table) es (tableFaults u.name es table)
      (tableEntries u table) := by
  unfold tableFaults tableEntries Profile.tableEntries
  rw [show u.option.displayName = u.name from rfl]
  cases hread : ExportTable.read u.name table with
  | error err => exact .of_unsound (fun ⟨fs, hfs⟩ => by cases hfs) (List.cons_ne_nil _ _)
  | ok fs =>
    refine ⟨?_, fun _ => by simp [Except.toOption]⟩
    rw [Registry.conflicts_eq_nil_iff hes (ExportTable.unit_of_read hread)]
    simp [Except.toOption]

theorem initUnit_contributes (hr : r.Reads us σ) (hnodup : (us.map (·.handle)).Nodup)
    (hu : u ∈ us) (hc : r.Collects es) (hes : es.Pairwise Entry.Agrees)
    (hp : ∀ mod, m.host.source.load u.option = .ok mod → p.Describes mod) :
    Contributes (p.SoundFirst m.host.settings.vmVersion u.option m.host.source)
      (p.firstEntries m.host.settings.vmVersion u.option) es (initFaults n es r u m)
      (initEntries n r u m) := by
  unfold initFaults initEntries
  cases hload : m.host.source.load u.option with
  | error fault =>
    refine .of_unsound (fun h => ?_) (List.cons_ne_nil _ _)
    obtain ⟨mod, hmod⟩ := h.found
    rw [hload] at hmod
    cases hmod
  | ok mod =>
    have hdescribes := hp mod hload
    have hexports := hdescribes.exports
    dsimp only
    rw [hdescribes.init]
    cases hinit : p.init with
    | none =>
      refine .of_unsound (fun h => ?_) (List.cons_ne_nil _ _)
      obtain ⟨c, hc, -⟩ := h.init
      rw [hinit] at hc
      cases hc
    | some c =>
      generalize hme : mod.exports = exports? at hexports ⊢
      generalize hpe : p.exports = table? at hexports
      cases hexports with
      | none =>
        refine .of_unsound (fun h => ?_) (List.cons_ne_nil _ _)
        obtain ⟨table, _, htable, -⟩ := h.exports
        rw [hpe] at htable
        cases htable
      | @some exports table htable =>
        obtain ⟨hreads, hcollects⟩ := attach_registry (m := m) hr hu hc mod
        obtain ⟨v, hv, hoption, -⟩ := hreads.unit? hnodup hu
        have hinitial := Conduct.callHook_contributes (m := (attach r u.handle mod).after m) c n
          .init ⟨v, hv, hoption⟩ hcollects hes .initFailed
        have hexported : (exportsCall n r u mod c.hook exports).result m = table := htable ..
        have hboth := hinitial.append fun hnil =>
          table_contributes u table (hinitial.pairwise_added hnil)
        have hentries : p.firstEntries m.host.settings.vmVersion u.option =
            c.entries m.host.settings.vmVersion u.option ++
              Profile.tableEntries u.option table := by
          simp [Profile.firstEntries, hinit, hpe]
        simp only [Option.map_some, Option.isSome_some, ↓reduceIte, List.nil_append, hexported,
          hentries]
        exact hboth.of_iff (Profile.soundFirst_iff hload hinit hpe)

theorem postInitUnit_contributes (hr : r.Reads us σ) (hnodup : (us.map (·.handle)).Nodup)
    (hu : u ∈ us) (ha : m.Attached u) (hc : r.Collects es) (hes : es.Pairwise Entry.Agrees)
    (hp : ∀ mod, m.host.source.load u.option = .ok mod → p.Describes mod) :
    Contributes (p.SoundSecond m.host.settings.vmVersion u.option)
      (p.secondEntries m.host.settings.vmVersion u.option) es (postInitFaults n es r u m)
      (postInitEntries n r u m) := by
  obtain ⟨mod, hload, -⟩ := ha
  have hhook : m.host.source.hookOf .postInit u = p.postInit.map Conduct.hook := by
    simp only [SourceOf.hookOf, hload, ModuleOf.hook?, (hp mod hload).postInit]
  obtain ⟨v, hv, hoption, -⟩ := hr.unit? hnodup hu
  unfold postInitFaults postInitEntries Profile.SoundSecond Profile.secondEntries
  rw [hhook]
  cases p.postInit with
  | none => exact .nil (fun _ h => by cases h) hes
  | some c =>
    have hcall :=
      c.callHook_contributes (m := m) n .postInit ⟨v, hv, hoption⟩ hc hes .postInitFailed
    rw [Option.toList_some, List.flatMap_singleton]
    exact hcall.of_iff ⟨fun h => h c rfl, fun h _ hsome => Option.some.inj hsome ▸ h⟩

/-! ### Phases -/

theorem initUnits_contribute {vmVersion : String} {src : Source} (profile : UnitOption → Profile)
    (hn : n.Lawful) (vs : List DeclaredUnit) (h : Awaits G us vs .parsed σ r m)
    (hc : r.Collects es) (hes : es.Pairwise Entry.Agrees)
    (hvm : m.host.settings.vmVersion = vmVersion) (hsrc : m.host.source = src)
    (hp : ∀ v ∈ vs, ∀ mod, src.load v.option = .ok mod → (profile v.option).Describes mod) :
    Contributes (∀ v ∈ vs, (profile v.option).SoundFirst vmVersion v.option src)
      (vs.flatMap fun v => (profile v.option).firstEntries vmVersion v.option) es
      (loadFaults n es r vs m) (loadEntries n r vs m) := by
  induction vs generalizing r σ m es with
  | nil => exact .nil (List.forall_mem_nil _) hes
  | cons v vs ih =>
    have hsettles := initUnit_settles (X := []) hn h.orderly h.reads h.owned h.head_mem
      h.head_state hc
    have hnext (r' : Registry) (hres : (initUnit n r v).result m = (none, r')) :=
      h.next (X := []) hn hres
    have hfirst := initUnit_contributes (n := n) (p := profile v.option) h.reads h.nodup h.head_mem
      hc hes (by rw [hsrc]; exact hp v (by simp))
    rw [hvm, hsrc] at hfirst
    rw [loadFaults, loadEntries, List.flatMap_cons]
    refine (hfirst.append fun hnil => ?_).of_iff List.forall_mem_cons
    have hpairs := hfirst.pairwise_added hnil
    rw [hnil] at hsettles
    have herror := hsettles.error
    have hcollects := hsettles.collects rfl
    generalize (initUnit n r v).result m = res at hnext herror hcollects ⊢
    obtain ⟨_, r₁⟩ := res
    cases herror
    obtain ⟨hawaits, haround⟩ := hnext r₁ rfl
    exact ih hawaits hcollects hpairs (haround.vmVersion.trans hvm) (haround.source.trans hsrc)
      fun w hw => hp w (by simp [hw])

theorem postInitUnits_contribute {vmVersion : String} {src : Source}
    (profile : UnitOption → Profile) (hn : n.Lawful) (vs : List DeclaredUnit)
    (h : Awaits G us vs .activePending σ r m) (ha : ∀ v ∈ vs, m.Attached v)
    (hc : r.Collects es) (hes : es.Pairwise Entry.Agrees)
    (hvm : m.host.settings.vmVersion = vmVersion) (hsrc : m.host.source = src)
    (hp : ∀ v ∈ vs, ∀ mod, src.load v.option = .ok mod → (profile v.option).Describes mod) :
    Contributes (∀ v ∈ vs, (profile v.option).SoundSecond vmVersion v.option)
      (vs.flatMap fun v => (profile v.option).secondEntries vmVersion v.option) es
      (completeFaults n es r vs m) (completeEntries n r vs m) := by
  induction vs generalizing r σ m es with
  | nil => exact .nil (List.forall_mem_nil _) hes
  | cons v vs ih =>
    have hsettles := postInitUnit_settles (X := []) hn h.orderly h.reads h.head_mem
      (ha v (by simp)) hc
    have hnext (r' : Registry) (hres : (postInitUnit n r v.handle).result m = (none, r')) :=
      h.nextPostInit (X := []) hn ha hres
    have hfirst := postInitUnit_contributes (n := n) (p := profile v.option) h.reads h.nodup
      h.head_mem (ha v (by simp)) hc hes (by rw [hsrc]; exact hp v (by simp))
    rw [hvm] at hfirst
    rw [completeFaults, completeEntries, List.flatMap_cons]
    refine (hfirst.append fun hnil => ?_).of_iff List.forall_mem_cons
    have hpairs := hfirst.pairwise_added hnil
    rw [hnil] at hsettles
    have herror := hsettles.error
    have hcollects := hsettles.collects rfl
    generalize (postInitUnit n r v.handle).result m = res at hnext herror hcollects ⊢
    obtain ⟨_, r₁⟩ := res
    cases herror
    obtain ⟨hawaits, hattached, haround⟩ := hnext r₁ rfl
    exact ih hawaits hattached hcollects hpairs (haround.vmVersion.trans hvm)
      (haround.source.trans hsrc) fun w hw => hp w (by simp [hw])

/-! ### Whole startups -/

def profileEntries (profile : UnitOption → Profile) (vmVersion : String) (os : List UnitOption) :
    List Entry :=
  Registry.inPhases (fun o => (profile o).firstEntries vmVersion o)
    (fun o => (profile o).secondEntries vmVersion o) os

/-- Units that keep to themselves: what an option declares is as its profile says. -/
def Profiled (profile : UnitOption → Profile) (m : Machine) : Prop :=
  ∀ o ∈ readOptions m.host.settings.units, ∀ mod, m.host.source.load o = .ok mod →
    (profile o).Describes mod

/-- What units contribute to a startup that accepts their options. -/
theorem start_contributes {profile : UnitOption → Profile} {os : List UnitOption} (hn : n.Lawful)
    (ho : m.Orderly G) (he : m.host.settings.enabled = true) (hp : Profiled profile m)
    (hoptions : optionFaults m.host.settings.units = [])
    (hdistinct : duplicateFaults [] (readOptions m.host.settings.units) = [])
    (hos : readOptions m.host.settings.units = os) :
    Contributes
      ((∀ o ∈ os, (profile o).SoundFirst m.host.settings.vmVersion o m.host.source) ∧
        ∀ o ∈ os, (profile o).SoundSecond m.host.settings.vmVersion o)
      (profileEntries profile m.host.settings.vmVersion os) [] (startFaults n m)
      (startEntries n m) := by
  subst hos
  have hunits : (startUnits m).map (·.option) = readOptions m.host.settings.units :=
    map_option_declared ..
  have ho₁ := orderly_startMachine ho he hoptions hdistinct
  have hdescribes : ∀ v ∈ startUnits m, ∀ mod, m.host.source.load v.option = .ok mod →
      (profile v.option).Describes mod := fun v hv =>
    hp v.option (hunits ▸ List.mem_map_of_mem hv)
  have hawaits : Awaits G (startUnits m) (startUnits m) .parsed (fun _ => .parsed)
      { units := startUnits m } (startMachine m) :=
    .all ho₁ (reads_declared rfl) fun _ h => by cases h
  have hfirst := initUnits_contribute profile hn (startUnits m) hawaits
    (Registry.collects_empty (startUnits m)) List.Pairwise.nil rfl rfl hdescribes
  have hloaded := (initAll_outcome hn ho he hoptions hdistinct).2
  obtain ⟨_, _, hdoes, -⟩ := initUnits_does (X := []) hn (startUnits m) hawaits
    fun _ _ => by simp
  have hboth := hfirst.append fun hnil => by
    obtain ⟨-, -, hstands, ho₂, hcollects⟩ := hloaded hnil
    exact postInitUnits_contribute profile hn (startUnits m)
      (.all ho₂ hstands.reads hstands.owned) hstands.attached hcollects
      (hfirst.pairwise_added hnil) hdoes.moves.around.vmVersion hdoes.moves.around.source hdescribes
  rw [startFaults, hoptions, hdistinct, ← hunits]
  simp only [List.forall_mem_map, profileEntries, Registry.inPhases, List.flatMap_map,
    List.nil_append]
  exact hboth

end Startup

end AccelHost
