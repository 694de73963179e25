import AccelHost.Proofs.HookOrder
import AccelHost.Proofs.StartupChecks

/-!
The outcome of a startup. All that stands against it is listed in one order: options that cannot be
read, options that repeat a feature, then what stands against each unit in the first phase, and in
the second. The first of it is the answer; if there is none, every unit is active, and each method
is published with the entry that was registered first.
-/
namespace AccelHost

open Holding

namespace Startup

def optionFaults (texts : List String) : List StartupError :=
  texts.filterMap fun text =>
    match UnitOption.parse text with
    | .error fault => some (.invalidUnitOption text fault)
    | .ok _ => none

def readOptions (texts : List String) : List UnitOption :=
  texts.filterMap fun text => (UnitOption.parse text).toOption

/-- The options that repeat a feature of one before them, each with the first that has it. -/
def duplicateFaults (before : List UnitOption) : List UnitOption → List StartupError
  | [] => []
  | option :: rest =>
    ((before.find? fun first => first.feature = option.feature).map fun first =>
      .duplicateUnit option.feature first.text option.text).toList ++
      duplicateFaults (before ++ [option]) rest

/-- The units of a startup, as far as its options can be read. -/
def startUnits (m : Machine) : List DeclaredUnit :=
  declared m.nextHandle (readOptions m.host.settings.units)

def startMachine (m : Machine) : Machine :=
  { m with nextHandle := m.nextHandle + (startUnits m).length }

def startLoad (n : Nested) (m : Machine) : Work (Option StartupError × Registry) :=
  initUnits n { units := startUnits m } (startUnits m)

def startEntries (n : Nested) (m : Machine) : List Entry :=
  loadEntries n { units := startUnits m } (startUnits m) (startMachine m) ++
    completeEntries n ((startLoad n m).result (startMachine m)).2 (startUnits m)
      ((startLoad n m).after (startMachine m))

/-- What stands against a startup, in the order of its report. -/
def startFaults (n : Nested) (m : Machine) : List StartupError :=
  optionFaults m.host.settings.units ++
    (duplicateFaults [] (readOptions m.host.settings.units) ++
    (loadFaults n [] { units := startUnits m } (startUnits m) (startMachine m) ++
    completeFaults n (loadEntries n { units := startUnits m } (startUnits m) (startMachine m))
      ((startLoad n m).result (startMachine m)).2 (startUnits m)
      ((startLoad n m).after (startMachine m))))

/-! ### Options -/

theorem parseAll_of_optionFaults {texts : List String} {err : StartupError}
    (h : (optionFaults texts).head? = some err) : parseAll texts = .error err := by
  induction texts with
  | nil => cases h
  | cons text texts ih =>
    unfold parseAll
    cases hp : UnitOption.parse text with
    | error fault =>
      simp only [optionFaults, List.filterMap_cons, hp, List.head?_cons] at h
      exact congrArg Except.error (Option.some.inj h)
    | ok option =>
      simp only [optionFaults, List.filterMap_cons, hp] at h
      simp only [ih h]

theorem parseAll_of_no_optionFaults {texts : List String} (h : optionFaults texts = []) :
    parseAll texts = .ok (readOptions texts) := by
  induction texts with
  | nil => rfl
  | cons text texts ih =>
    unfold parseAll readOptions
    cases hp : UnitOption.parse text with
    | error fault => simp [optionFaults, hp] at h
    | ok option =>
      simp only [optionFaults, List.filterMap_cons, hp] at h
      simp only [ih h, List.filterMap_cons, hp, Except.toOption]
      rfl

theorem nodup_of_duplicateFaults {before options : List UnitOption}
    (hb : (before.map (·.feature)).Nodup) (h : duplicateFaults before options = []) :
    (before.map (·.feature) ++ options.map (·.feature)).Nodup := by
  induction options generalizing before with
  | nil => simpa using hb
  | cons option rest ih =>
    obtain ⟨hnone, hrest⟩ := List.append_eq_nil_iff.1 h
    have hnew : option.feature ∉ before.map (·.feature) := by
      intro hmem
      obtain ⟨first, hfirst, hfeature⟩ := List.mem_map.1 hmem
      rw [Option.toList_eq_nil_iff, Option.map_eq_none_iff, List.find?_eq_none] at hnone
      exact hnone first hfirst (by simpa using hfeature)
    have hnodup : ((before ++ [option]).map (·.feature)).Nodup := by
      rw [List.map_append, List.map_singleton, ← List.concat_eq_append]
      exact hb.concat hnew
    have hall := ih hnodup hrest
    rwa [List.map_append, List.append_assoc] at hall

theorem duplicateFaults_of_nodup {before options : List UnitOption}
    (h : (before.map (·.feature) ++ options.map (·.feature)).Nodup) :
    duplicateFaults before options = [] := by
  induction options generalizing before with
  | nil => rfl
  | cons option rest ih =>
    have hnone : before.find? (fun first => first.feature = option.feature) = none := by
      refine List.find?_eq_none.2 fun first hfirst heq => ?_
      have hne := (List.nodup_append.1 h).2.2 _ (List.mem_map_of_mem hfirst) _
        (List.mem_cons_self ..)
      exact hne (by simpa using heq)
    rw [duplicateFaults, hnone, ih (by simpa using h)]
    rfl

theorem declareAll_of_duplicateFaults {r : Registry} {m : Machine} {options : List UnitOption}
    {err : StartupError}
    (h : (duplicateFaults (r.units.map (·.option)) options).head? = some err) :
    (declareAll r options).result m = .error err ∧
      ∃ k, (declareAll r options).after m = { m with nextHandle := m.nextHandle + k } := by
  induction options generalizing r m with
  | nil => cases h
  | cons option rest ih =>
    have hfind : (r.units.map (·.option)).find? (fun first => first.feature = option.feature) =
        (r.units.find? fun u => u.option.feature = option.feature).map (·.option) :=
          List.find?_map ..
    rw [duplicateFaults, hfind] at h
    cases hfirst : r.units.find? fun u => u.option.feature = option.feature with
    | some u =>
      have hregister : r.register option m.nextHandle =
          .error (.duplicateUnit option.feature u.option.text option.text) := by
        simp only [Registry.register, hfirst]
      rw [hfirst] at h
      cases h
      refine ⟨?_, 0, ?_⟩ <;>
        simp only [Work.result, Work.after, declareAll, StateT.run_bind, StateT.run_get, pure_bind,
          hregister] <;> rfl
    | none =>
      have hnew : option.feature ∉ r.units.map (·.option.feature) := by
        intro hmem
        obtain ⟨u, hu, hfeature⟩ := List.mem_map.1 hmem
        exact List.find?_eq_none.1 hfirst u hu (by simpa using hfeature)
      rw [hfirst, Option.map_none, Option.map_none, Option.toList_none, List.nil_append] at h
      obtain ⟨hresult, hafter⟩ := @declareAll_cons m r option rest hnew
      obtain ⟨herror, k, hk⟩ := ih
        (r := { r with units := r.units ++ [{ handle := m.nextHandle, option }] })
        (m := { m with nextHandle := m.nextHandle + 1 }) (by simpa using h)
      exact ⟨hresult.trans herror, 1 + k, by rw [hafter, hk, Nat.add_assoc]⟩

/-! ### Phases -/

variable {n : Nested} {G : List UnitHandle} {m : Machine} {r : Registry} {us : List DeclaredUnit}

theorem result_loadAll : (loadAll n r).result m =
    ((initUnits n r r.units).result m).1.elim (.ok ((initUnits n r r.units).result m).2)
      .error := by
  unfold loadAll
  rw [Work.result_bind]
  generalize (initUnits n r r.units).result m = res
  obtain ⟨_ | err, r'⟩ := res <;> rfl

theorem after_loadAll_of_ok (h : ((initUnits n r r.units).result m).1 = none) :
    (loadAll n r).after m = (initUnits n r r.units).after m := by
  unfold loadAll
  rw [Work.after_bind]
  generalize (initUnits n r r.units).result m = res at h ⊢
  obtain ⟨error, r'⟩ := res
  cases h
  rfl

theorem result_postInitAll (h : r.units.map (·.handle) = us.map (·.handle)) :
    (postInitAll n r).result m = ((postInitUnits n r (us.map (·.handle))).result m).1.elim
      (.ok ((postInitUnits n r (us.map (·.handle))).result m).2) .error := by
  unfold postInitAll
  rw [Work.result_bind, h]
  generalize (postInitUnits n r (us.map (·.handle))).result m = res
  obtain ⟨_ | err, r'⟩ := res <;> rfl

theorem initAll_of_declared (he : m.host.settings.enabled = true)
    (hoptions : optionFaults m.host.settings.units = [])
    (hdistinct : duplicateFaults [] (readOptions m.host.settings.units) = []) :
    m.declares = startUnits m ∧ m.afterDeclares = startMachine m ∧
      (initAll n).result m = (loadAll n { units := startUnits m }).result (startMachine m) ∧
      (initAll n).after m = (loadAll n { units := startUnits m }).after (startMachine m) := by
  have hparse := parseAll_of_no_optionFaults hoptions
  have hnodup := nodup_of_duplicateFaults (by simp) hdistinct
  have hdeclares : m.declares = startUnits m := declares_eq he hparse hnodup
  have hmachine : m.afterDeclares = startMachine m := by
    rw [Machine.afterDeclares, hdeclares, startMachine]
  obtain ⟨hresult, hafter⟩ := declareAll_of_nodup (m := m) (r := {}) _ hnodup
  rw [← length_declared m.nextHandle] at hafter
  refine ⟨hdeclares, hmachine, ?_, ?_⟩ <;>
    simp only [initAll, Work.result_bind, Work.after_bind, Work.result_host, Work.after_host, he,
      Bool.not_true, Bool.false_eq_true, ↓reduceIte, hparse, hresult, hafter, List.nil_append] <;>
    rfl

theorem start_of_refused (he : m.host.settings.enabled = true) {err : StartupError}
    (h : (optionFaults m.host.settings.units ++
      duplicateFaults [] (readOptions m.host.settings.units)).head? = some err) :
    (start n).result m = .error err ∧
      ∃ k, (start n).after m = { m with nextHandle := m.nextHandle + k } := by
  have hinit : (initAll n).result m = .error err ∧
      ∃ k, (initAll n).after m = { m with nextHandle := m.nextHandle + k } := by
    unfold initAll
    simp only [Work.result_bind, Work.after_bind, Work.result_host, Work.after_host, he,
      Bool.not_true, Bool.false_eq_true, ↓reduceIte]
    rw [List.head?_append] at h
    cases hoptions : (optionFaults m.host.settings.units).head? with
    | some first =>
      rw [hoptions] at h
      cases h
      rw [parseAll_of_optionFaults hoptions]
      exact ⟨rfl, 0, rfl⟩
    | none =>
      rw [hoptions, Option.none_or] at h
      rw [parseAll_of_no_optionFaults (List.head?_eq_none_iff.1 hoptions)]
      obtain ⟨hresult, k, hafter⟩ := declareAll_of_duplicateFaults (r := {}) (m := m) h
      simp only [Work.result_bind, Work.after_bind, hresult, hafter]
      exact ⟨rfl, k, rfl⟩
  obtain ⟨hresult, hafter⟩ := result_start_of_initAll_error hinit.1
  rw [hresult, hafter]
  exact ⟨rfl, hinit.2⟩

theorem orderly_startMachine (ho : m.Orderly G) (he : m.host.settings.enabled = true)
    (hoptions : optionFaults m.host.settings.units = [])
    (hdistinct : duplicateFaults [] (readOptions m.host.settings.units) = []) :
    (startMachine m).Orderly ((startUnits m).map (·.handle) ++ G) := by
  obtain ⟨hdeclares, hmachine, -⟩ := initAll_of_declared (n := .ofDepth 0) he hoptions hdistinct
  have ho₁ := (orderly_afterDeclares (X := []) ho (moves_afterDeclares [] m)).1
  rwa [hdeclares, hmachine] at ho₁

/-- The first phase fails with the first fault of a unit, or leaves all units waiting for the second
one. -/
theorem initAll_outcome (hn : n.Lawful) (ho : m.Orderly G) (he : m.host.settings.enabled = true)
    (hoptions : optionFaults m.host.settings.units = [])
    (hdistinct : duplicateFaults [] (readOptions m.host.settings.units) = []) :
    let r := ((startLoad n m).result (startMachine m)).2
    let m₁ := (startLoad n m).after (startMachine m)
    let faults := loadFaults n [] { units := startUnits m } (startUnits m) (startMachine m)
    (∀ err, faults.head? = some err → (initAll n).result m = .error err) ∧
      (faults = [] → (initAll n).result m = .ok r ∧ (initAll n).after m = m₁ ∧
        m₁.Stands (startUnits m) .activePending r ∧
        m₁.Orderly ((startUnits m).map (·.handle) ++ G) ∧
        r.Collects (loadEntries n { units := startUnits m } (startUnits m) (startMachine m))) := by
  intro r m₁ faults
  obtain ⟨hdeclares, hmachine, hresult, hafter⟩ :=
    initAll_of_declared (n := n) he hoptions hdistinct
  have ho₁ := orderly_startMachine ho he hoptions hdistinct
  have hsettles := initUnits_settles (X := []) hn (startUnits m)
    (.all ho₁ (reads_declared rfl) fun _ h => by cases h) (Registry.collects_empty (startUnits m))
  rw [result_loadAll, hsettles.error] at hresult
  refine ⟨fun err herr => ?_, fun hnil => ?_⟩
  · have hhead : (loadFaults n [] { units := startUnits m } (startUnits m)
      (startMachine m)).head? = some err := herr
    rw [hresult, hhead]
    rfl
  · have hnone : (loadFaults n [] { units := startUnits m } (startUnits m) (startMachine m)) = [] :=
      hnil
    rw [hnone] at hresult hsettles
    rw [after_loadAll_of_ok hsettles.error] at hafter
    have hok : (initAll n).result m = .ok r := hresult
    have hmoved : (initAll n).after m = m₁ := hafter
    have hend := initAll_end (X := []) (G := G) hn ho
    rw [hok, hmoved] at hend
    cases hend with
    | done _ hd hstands =>
      rw [hdeclares, hmachine] at hd
      rw [hdeclares] at hstands
      exact ⟨hok, hmoved, hstands, hd.orderly ho₁, hsettles.collects rfl⟩

/-- The second phase fails with the first fault of a unit, or makes all units active. -/
theorem postInitAll_outcome {es : List Entry} (hn : n.Lawful)
    (ho : m.Orderly (us.map (·.handle) ++ G)) (hs : m.Stands us .activePending r)
    (hc : r.Collects es) :
    (∀ err, (completeFaults n es r us m).head? = some err →
      (postInitAll n r).result m = .error err) ∧
      (completeFaults n es r us m = [] → ∃ r', (postInitAll n r).result m = .ok r' ∧
        r'.Reads us (fun _ => .active) ∧ r'.Collects (es ++ completeEntries n r us m)) := by
  have hsettles := postInitUnits_settles (X := []) hn us (.all ho hs.reads hs.owned) hs.attached hc
  have hresult := result_postInitAll (n := n) (m := m) hs.reads.handles_eq
  rw [hsettles.error] at hresult
  refine ⟨fun err herr => ?_, fun hnil => ?_⟩
  · rw [hresult, herr]
    rfl
  · rw [hnil] at hresult
    have hend := postInitAll_end (X := []) (G := G) hn ho hs
    rw [hresult] at hend
    refine ⟨_, hresult, ?_, hsettles.collects hnil⟩
    cases hend with
    | done _ _ hstands => exact hstands.reads

/-- What is published by a startup that succeeds: every unit is active, and each method has the
entry that was registered first. -/
structure Published (n : Nested) (m : Machine) (rt : Runtime) : Prop where
  active : rt.registry.Reads (startUnits m) fun _ => .active
  published : rt.replacements.published = rt.registry
  collects : rt.registry.Collects (startEntries n m)

theorem start_of_declared (hn : n.Lawful) (ho : m.Orderly G)
    (he : m.host.settings.enabled = true)
    (hoptions : optionFaults m.host.settings.units = [])
    (hdistinct : duplicateFaults [] (readOptions m.host.settings.units) = []) :
    (∀ err, (startFaults n m).head? = some err → (start n).result m = .error err) ∧
      (startFaults n m = [] → ∃ rt, (start n).result m = .ok rt ∧ Published n m rt) := by
  obtain ⟨hfailed, hloaded⟩ := initAll_outcome hn ho he hoptions hdistinct
  unfold startFaults
  rw [hoptions, hdistinct, List.nil_append, List.nil_append, List.head?_append]
  cases hload : loadFaults n [] { units := startUnits m } (startUnits m) (startMachine m) with
  | cons first others =>
    refine ⟨fun err herr => ?_, fun hnil => by cases hnil⟩
    cases herr
    refine (result_start_of_initAll_error (hfailed first ?_)).1
    rw [hload, List.head?_cons]
  | nil =>
    obtain ⟨hinit, hafter, hstands, ho₁, hcollects⟩ := hloaded hload
    obtain ⟨herror, hok⟩ := postInitAll_outcome hn ho₁ hstands hcollects
    rw [← hafter] at herror hok
    rw [List.head?_nil, Option.none_or, List.nil_append, ← hafter]
    refine ⟨fun err herr => (result_start_of_error hinit (herror err herr)).1, fun hnil => ?_⟩
    obtain ⟨r', hpost, hreads, hcollects'⟩ := hok hnil
    refine ⟨_, (result_start_of_ok hinit hpost).1, hreads, rfl, ?_⟩
    rw [hafter] at hcollects'
    exact hcollects'

/-- The outcome of a startup: the first of its faults, or a runtime if there is none. -/
theorem start_outcome (hn : n.Lawful) (ho : m.Orderly G) (he : m.host.settings.enabled = true) :
    (∀ err, (startFaults n m).head? = some err → (start n).result m = .error err) ∧
      (startFaults n m = [] → ∃ rt, (start n).result m = .ok rt ∧ Published n m rt) := by
  by_cases hrefused : optionFaults m.host.settings.units ++
      duplicateFaults [] (readOptions m.host.settings.units) = []
  · obtain ⟨hoptions, hdistinct⟩ := List.append_eq_nil_iff.1 hrefused
    exact start_of_declared hn ho he hoptions hdistinct
  · have hfirst := List.head?_eq_some_head hrefused
    have hhead : (startFaults n m).head? = some (List.head _ hrefused) := by
      rw [startFaults, ← List.append_assoc, List.head?_append, hfirst, Option.some_or]
    refine ⟨fun err herr => ?_, fun hnil => ?_⟩
    · rw [hhead] at herr
      cases herr
      exact (start_of_refused he hfirst).1
    · rw [hnil] at hhead
      cases hhead

theorem start_eq_ok_iff (hn : n.Lawful) (ho : m.Orderly G) (he : m.host.settings.enabled = true) :
    (∃ rt, (start n).result m = .ok rt) ↔ startFaults n m = [] := by
  obtain ⟨herror, hok⟩ := start_outcome hn ho he
  refine ⟨fun ⟨rt, hrt⟩ => ?_, fun hnil => ?_⟩
  · cases hfaults : startFaults n m with
    | nil => rfl
    | cons err errs =>
      rw [herror err (by rw [hfaults, List.head?_cons])] at hrt
      cases hrt
  · obtain ⟨rt, hrt, -⟩ := hok hnil
    exact ⟨rt, hrt⟩

theorem start_of_disabled (n : Nested) (he : m.host.settings.enabled = false) :
    ∃ rt, (start n).result m = .ok rt ∧ rt.registry = {} ∧ rt.replacements.published = {} := by
  have hinit : (initAll n).result m = .ok {} ∧ (initAll n).after m = m := by
    unfold initAll
    simp only [Work.result_bind, Work.after_bind, Work.result_host, Work.after_host, he]
    exact ⟨rfl, rfl⟩
  have hpost : (postInitAll n {}).result ((initAll n).after m) = .ok {} := rfl
  exact ⟨_, (result_start_of_ok hinit.1 hpost).1, rfl, rfl⟩

end Startup

open Startup in
/-- A startup answers with the first check that fails, in the order of the phases and in each of
them in the order of the units, and it succeeds exactly if none fails. Nothing is loaded and no hook
is called before all options are accepted. A startup may be made at any machine in order, as every
machine is that a program comes to. -/
theorem start_reports_first_fault (d : Nat) :
    (∀ (program : Program) (ops : List Op),
      ((ops.mapM (Op.answer (.ofDepth d))).after (.ofProgram program)).Orderly []) ∧
    ∀ (G : List UnitHandle) (m : Machine), m.Orderly G → m.host.settings.enabled = true →
      let n := Nested.ofDepth d
      (∀ err, (start n).result m = .error err ↔ (startFaults n m).head? = some err) ∧
      ((∃ rt, (start n).result m = .ok rt) ↔ startFaults n m = []) ∧
      (optionFaults m.host.settings.units ++
          duplicateFaults [] (readOptions m.host.settings.units) ≠ [] →
        ∃ k, (start n).after m = { m with nextHandle := m.nextHandle + k }) ∧
      ∀ rt, (start n).result m = .ok rt → Published n m rt := by
  refine ⟨fun program ops => Op.orderly_answers d ops (Machine.orderly_ofProgram program),
    fun G m ho he => ?_⟩
  intro n
  obtain ⟨herror, hok⟩ := start_outcome (n := n) (Nested.lawful_ofDepth d) ho he
  have hcases : (∃ err, (startFaults n m).head? = some err) ∨ startFaults n m = [] := by
    cases startFaults n m with
    | nil => exact .inr rfl
    | cons first others => exact .inl ⟨first, rfl⟩
  refine ⟨fun err => ⟨fun h => ?_, herror err⟩, ⟨fun ⟨rt, h⟩ => ?_, fun h => ?_⟩, fun h => ?_,
    fun rt h => ?_⟩
  · rcases hcases with ⟨first, hfirst⟩ | hnil
    · have hsame := (herror first hfirst).symm.trans h
      cases hsame
      exact hfirst
    · obtain ⟨rt, hrt, -⟩ := hok hnil
      rw [h] at hrt
      cases hrt
  · refine hcases.resolve_left fun ⟨first, hfirst⟩ => ?_
    rw [herror first hfirst] at h
    cases h
  · obtain ⟨rt, hrt, -⟩ := hok h
    exact ⟨rt, hrt⟩
  · exact (start_of_refused he (List.head?_eq_some_head h)).2
  · rcases hcases with ⟨first, hfirst⟩ | hnil
    · rw [herror first hfirst] at h
      cases h
    · obtain ⟨rt', hrt, hpublished⟩ := hok hnil
      rw [h] at hrt
      cases hrt
      exact hpublished

/-- A program with two units. The `post_init` of the first fails, and the `init` of the second. -/
def twoFailing : Program where
  settings := { enabled := true, units := ["libLate_1", "libEarly_1"] }
  source :=
    { load := fun option => .ok
        { location := option.text
          init := some fun _ => .done (if option.text = "libLate_1" then Status.ok else 7)
          postInit := some fun _ => .done 9
          exports := some (.done (some ⟨abiVersion, 0, none⟩)) }
      contains := fun _ => true }
  native := fun _ => none
  provider := fun _ => none
  steps := []

open Startup in
/-- The unit that fails in the first phase is reported, although it is declared behind the other. -/
theorem start_reports_first_fault_twoFailing :
    (Machine.ofProgram twoFailing).Orderly [] ∧
      (Machine.ofProgram twoFailing).host.settings.enabled = true ∧
      (start (.ofDepth 1)).result (.ofProgram twoFailing) =
        .error (.initFailed "libEarly_1" (.status .init 7)) := by
  have ho := Machine.orderly_ofProgram twoFailing
  have hfirst : (startFaults (.ofDepth 1) (.ofProgram twoFailing)).head? =
      some (.initFailed "libEarly_1" (.status .init 7)) := by decide +kernel
  exact ⟨ho, rfl, (((start_reports_first_fault 1).2 [] _ ho rfl).1 _).2 hfirst⟩

end AccelHost
