import AccelHost.Proofs.OptionGrammar
import AccelHost.Proofs.Profiles

/-!
The order of declaration. Where units keep to themselves, whether a startup succeeds and what it
publishes is settled by the options that are declared, and is no matter of their order.
-/
namespace AccelHost

/-- What an entry puts in the place of its method: the name of the unit that owns it, the name of
the native function, its target and its convention. -/
def Entry.replacement (e : Entry) : String × String × NativeTarget × Convention :=
  (e.unit, e.nativeName, e.target, e.convention)

@[simp] theorem Entry.replacement_comp_bare : replacement ∘ bare = replacement := rfl

namespace Startup

variable {n : Nested} {G : List UnitHandle} {m : Machine} {us : List DeclaredUnit} {r : Registry}

theorem exists_parse_of_mem_readOptions {texts : List String} {o : UnitOption}
    (ho : o ∈ readOptions texts) : ∃ text, UnitOption.parse text = .ok o := by
  obtain ⟨text, -, htext⟩ := List.mem_filterMap.1 ho
  refine ⟨text, ?_⟩
  cases hp : UnitOption.parse text with
  | error fault =>
    rw [hp] at htext
    cases htext
  | ok o' =>
    rw [hp] at htext
    cases htext
    rfl

theorem nodup_displayNames {texts : List String}
    (h : ((readOptions texts).map (·.feature)).Nodup) :
    ((readOptions texts).map (·.displayName)).Nodup := by
  rw [List.Nodup, List.pairwise_map] at h ⊢
  refine h.imp_of_mem fun ho ho' hne hname => hne ?_
  obtain ⟨text, htext⟩ := exists_parse_of_mem_readOptions ho
  obtain ⟨text', htext'⟩ := exists_parse_of_mem_readOptions ho'
  exact UnitOption.feature_eq_of_displayName_eq htext htext' hname

section Declared

variable (profile : UnitOption → Profile) (vmVersion : String) (src : Source)

/-- Options with which a startup succeeds. -/
structure Succeeds (texts : List String) : Prop where
  readable : optionFaults texts = []
  distinct : ((readOptions texts).map (·.feature)).Nodup
  soundFirst : ∀ o ∈ readOptions texts, (profile o).SoundFirst vmVersion o src
  soundSecond : ∀ o ∈ readOptions texts, (profile o).SoundSecond vmVersion o
  agree : (profileEntries profile vmVersion (readOptions texts)).Pairwise Entry.Agrees

variable {profile vmVersion src} {texts texts' : List String}

theorem Succeeds.duplicateFaults_eq_nil (h : Succeeds profile vmVersion src texts) :
    duplicateFaults [] (readOptions texts) = [] := duplicateFaults_of_nodup h.distinct

theorem profileEntries_perm {os os' : List UnitOption} (h : os.Perm os') :
    (profileEntries profile vmVersion os).Perm (profileEntries profile vmVersion os') :=
  (h.flatMap_right _).append (h.flatMap_right _)

theorem Succeeds.perm (h : Succeeds profile vmVersion src texts) (hperm : texts.Perm texts') :
    Succeeds profile vmVersion src texts' := by
  have hread : (readOptions texts).Perm (readOptions texts') := hperm.filterMap _
  have hfaults : (optionFaults texts).Perm (optionFaults texts') := hperm.filterMap _
  refine ⟨?_, (hread.map _).nodup_iff.1 h.distinct, fun o ho => h.soundFirst o (hread.mem_iff.2 ho),
    fun o ho => h.soundSecond o (hread.mem_iff.2 ho), ?_⟩
  · rw [h.readable] at hfaults
    exact hfaults.symm.eq_nil
  · exact ((profileEntries_perm hread).pairwise_iff Entry.Agrees.symm).1 h.agree

/-- Which entry a method comes to have is the same for all orders of the options. -/
theorem Succeeds.entryOf?_perm (h : Succeeds profile vmVersion src texts)
    (hperm : texts.Perm texts') (method : Method) :
    Registry.entryOf? method (profileEntries profile vmVersion (readOptions texts)) =
      Registry.entryOf? method (profileEntries profile vmVersion (readOptions texts')) :=
  Registry.entryOf?_inPhases_perm (hperm.filterMap _) (nodup_displayNames h.distinct)
    (fun _ _ _ he => Profile.unit_of_mem_firstEntries he)
    (fun _ _ _ he => Profile.unit_of_mem_secondEntries he) h.agree

end Declared

def replacementOf (rt : Runtime) (method : Method) :
    Option (String × String × NativeTarget × Convention) :=
  (rt.replacements.published.find? method).map Entry.replacement

theorem map_option_activeUnits (hr : r.Reads us fun _ => .active) :
    r.activeUnits.map (·.option) = us.map (·.option) := by
  have hall : r.activeUnits = r.units := by
    refine List.filter_eq_self.2 fun v hv => ?_
    have hmem := List.mem_map_of_mem (f := fun v => (v.handle, v.option, v.state)) hv
    rw [hr] at hmem
    obtain ⟨u, -, hu⟩ := List.mem_map.1 hmem
    simp only [Prod.mk.injEq] at hu
    simp [DeclaredUnit.isActive, ← hu.2.2]
  have hoptions := congrArg (List.map (·.2.1)) hr
  rw [hall]
  simpa [Function.comp_def] using hoptions

section Profiled

variable {profile : UnitOption → Profile} (hn : n.Lawful) (ho : m.Orderly G)
  (he : m.host.settings.enabled = true) (hp : Profiled profile m)

include hn ho he hp

/-- Whether a startup succeeds is settled by its options and the profiles of its units. -/
theorem startFaults_eq_nil_iff : startFaults n m = [] ↔
    Succeeds profile m.host.settings.vmVersion m.host.source m.host.settings.units := by
  constructor
  · intro hnil
    obtain ⟨hoptions, hrest⟩ := List.append_eq_nil_iff.1 hnil
    obtain ⟨hdistinct, -⟩ := List.append_eq_nil_iff.1 hrest
    have hstart := start_contributes hn ho he hp hoptions hdistinct rfl
    obtain ⟨⟨hfirst, hsecond⟩, hpairs⟩ := hstart.faultless.1 hnil
    have hnodup := nodup_of_duplicateFaults (by simp) hdistinct
    exact ⟨hoptions, hnodup, hfirst, hsecond, hpairs⟩
  · intro h
    have hdistinct := h.duplicateFaults_eq_nil
    have hstart := start_contributes hn ho he hp h.readable hdistinct rfl
    exact hstart.faultless.2 ⟨⟨h.soundFirst, h.soundSecond⟩, h.agree⟩

/-- What a startup publishes is settled by its options and the profiles of its units. -/
theorem published_of_profiles {rt : Runtime} (hrt : (start n).result m = .ok rt) :
    (∀ method, replacementOf rt method = (Registry.entryOf? method
      (profileEntries profile m.host.settings.vmVersion (readOptions m.host.settings.units))).map
        Entry.replacement) ∧
    rt.registry.activeUnits.map (·.option) = readOptions m.host.settings.units := by
  have hnil := (start_eq_ok_iff hn ho he).1 ⟨rt, hrt⟩
  have h := (startFaults_eq_nil_iff hn ho he hp).1 hnil
  have hdistinct := h.duplicateFaults_eq_nil
  have hstart := start_contributes hn ho he hp h.readable hdistinct rfl
  obtain ⟨rt', hrt', hpublished⟩ := (start_outcome hn ho he).2 hnil
  rw [hrt] at hrt'
  cases hrt'
  refine ⟨fun method => ?_, ?_⟩
  · have hbare := congrArg (Registry.entryOf? method) (hstart.added hnil)
    rw [Registry.entryOf?_map_bare, Registry.entryOf?_map_bare] at hbare
    have htold := congrArg (Option.map Entry.replacement) hbare
    rw [Option.map_map, Option.map_map, Entry.replacement_comp_bare] at htold
    rw [replacementOf, hpublished.published, hpublished.collects.first, htold]
  · rw [map_option_activeUnits hpublished.active]
    exact map_option_declared ..

end Profiled

end Startup

def Machine.withUnits (m : Machine) (units : List String) : Machine :=
  m.withHost { m.host with settings := { m.host.settings with units } }

theorem Machine.Orderly.withUnits {m : Machine} {G : List UnitHandle} (ho : m.Orderly G)
    (units : List String) : (m.withUnits units).Orderly G :=
  ho.of_same rfl { Host.Same.refl m.host with } rfl

open Startup in
/-- The order in which units are declared does not matter, as long as they keep to themselves. A
startup may be made at any machine in order, as every machine is that a program comes to. With the
same units in another order it succeeds just as well, each method is replaced by the same native
function of the same unit, and the same units are active. -/
theorem start_perm (d : Nat) :
    (∀ (program : Program) (ops : List Op),
      ((ops.mapM (Op.answer (.ofDepth d))).after (.ofProgram program)).Orderly []) ∧
    ∀ (profile : UnitOption → Profile) (G : List UnitHandle) (m : Machine) (units : List String),
      m.Orderly G → Profiled profile m → m.host.settings.units.Perm units →
      let n := Nested.ofDepth d
      let m' := m.withUnits units
      ((∃ rt, (start n).result m = .ok rt) ↔ ∃ rt', (start n).result m' = .ok rt') ∧
      ∀ rt rt', (start n).result m = .ok rt → (start n).result m' = .ok rt' →
        (∀ method, replacementOf rt method = replacementOf rt' method) ∧
        (rt.registry.activeUnits.map (·.option)).Perm
          (rt'.registry.activeUnits.map (·.option)) := by
  refine ⟨fun program ops => Op.orderly_answers d ops (Machine.orderly_ofProgram program),
    fun profile G m units ho hp hperm => ?_⟩
  intro n m'
  have hn : n.Lawful := Nested.lawful_ofDepth d
  have ho' : m'.Orderly G := ho.withUnits units
  have hread : (readOptions m.host.settings.units).Perm (readOptions units) := hperm.filterMap _
  have hp' : Profiled profile m' := fun o hmem => hp o (hread.mem_iff.2 hmem)
  cases he : m.host.settings.enabled with
  | false =>
    obtain ⟨rt, hrt, hregistry, hpublished⟩ := start_of_disabled n he
    obtain ⟨rt', hrt', hregistry', hpublished'⟩ := start_of_disabled (m := m') n he
    refine ⟨iff_of_true ⟨rt, hrt⟩ ⟨rt', hrt'⟩, fun rt₁ rt₂ h₁ h₂ => ?_⟩
    rw [hrt] at h₁
    rw [hrt'] at h₂
    cases h₁
    cases h₂
    simp [replacementOf, hregistry, hregistry', hpublished, hpublished']
  | true =>
    have hsucceeds := startFaults_eq_nil_iff hn ho he hp
    have hsucceeds' := startFaults_eq_nil_iff hn ho' he hp'
    refine ⟨?_, fun rt rt' hrt hrt' => ?_⟩
    · rw [start_eq_ok_iff hn ho he, start_eq_ok_iff hn ho' he, hsucceeds, hsucceeds']
      exact ⟨fun h => h.perm hperm, fun h => h.perm hperm.symm⟩
    · have h := hsucceeds.1 ((start_eq_ok_iff hn ho he).1 ⟨rt, hrt⟩)
      obtain ⟨hreplaced, hactive⟩ := published_of_profiles hn ho he hp hrt
      obtain ⟨hreplaced', hactive'⟩ := published_of_profiles hn ho' he hp' hrt'
      refine ⟨fun method => ?_, ?_⟩
      · rw [hreplaced, hreplaced', h.entryOf?_perm hperm]
        rfl
      · rw [hactive, hactive']
        exact hread

def neighbourEntry (unit name : String) : RawEntry where
  className := .ofString unit
  methodName := .ofString name
  descriptor := .ofString "()I"
  nativeName := .ofString name
  func := some ⟨some unit, name⟩
  tags := some [5]
  tagCount := 1
  provider := none

/-- A hook that notes that it is called, registers an entry, and fails if that is rejected. -/
def neighbourHook (point : EntryPoint) (unit name : String) : Conduct :=
  .ask (.aside (.note (.hook point unit)) (Action.aside_note _)) fun _ =>
    .ask (.ask (.register 0 (some (neighbourEntry unit name)))) fun reply =>
      .done (if reply = some (.status Status.ok) then Status.ok else Status.error)

/-- A unit that registers one method at each occasion. -/
def neighbour (o : UnitOption) : Profile where
  init := some (neighbourHook .init o.displayName "early")
  postInit := some (neighbourHook .postInit o.displayName "late")
  exports := some (some ⟨abiVersion, 1, some [neighbourEntry o.displayName "listed"]⟩)

def neighbours : Program where
  settings := { enabled := true, units := ["libLeft_1", "libRight_1"] }
  source := { load := fun o => .ok ((neighbour o).toModule o.text), contains := fun _ => true }
  native := fun _ => none
  provider := fun _ => none
  steps := []

open Startup in
/-- Two units that have nothing in common start in either order. -/
theorem start_perm_neighbours :
    let n := Nested.ofDepth 1
    let m := Machine.ofProgram neighbours
    let m' := m.withUnits ["libRight_1", "libLeft_1"]
    m.Orderly [] ∧ Profiled neighbour m ∧
      m.host.settings.units.Perm ["libRight_1", "libLeft_1"] ∧
      ∃ rt rt', (start n).result m = .ok rt ∧ (start n).result m' = .ok rt' ∧
        ∀ method, replacementOf rt method = replacementOf rt' method := by
  intro n m m'
  have ho : m.Orderly [] := Machine.orderly_ofProgram neighbours
  have hp : Profiled neighbour m := fun o _ mod hmod => by
    cases hmod
    exact (neighbour o).describes_toModule o.text
  have hperm : m.host.settings.units.Perm ["libRight_1", "libLeft_1"] := .swap _ _ _
  have hok : ((start n).result m).toOption.isSome = true := by decide +kernel
  obtain ⟨heither, hsame⟩ := (start_perm 1).2 neighbour [] m _ ho hp hperm
  cases hrt : (start n).result m with
  | error err =>
    rw [hrt] at hok
    cases hok
  | ok rt =>
    obtain ⟨rt', hrt'⟩ := heither.1 ⟨rt, hrt⟩
    exact ⟨ho, hp, hperm, rt, rt', rfl, hrt', (hsame rt rt' hrt hrt').1⟩

end AccelHost
