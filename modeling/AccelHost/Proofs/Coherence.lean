import AccelHost.Proofs.Admission
import AccelHost.Proofs.OptionGrammar
import Mathlib.Data.List.Nodup

/-!
How the units and the entries of a registry belong together. Units are told apart by their features,
and so by their names. Each unit lists the methods of its own entries, in the order of the table,
and each entry has one unit.
-/
namespace AccelHost

def DeclaredUnit.listing (ms : List Method) (u : DeclaredUnit) : DeclaredUnit :=
  { u with methods := u.methods ++ ms }

namespace Registry

/-- The methods of the entries that a unit owns, in the order of the table. -/
def methodsOf (r : Registry) (x : UnitHandle) : List Method :=
  (r.entries.filter fun e => e.owner = some x).map (·.method)

/-- Units with options that were read, with handles and features of their own. -/
structure Declares (r : Registry) : Prop where
  parsed : ∀ u ∈ r.units, ∃ text, UnitOption.parse text = .ok u.option
  handles : r.handles.Nodup
  features : (r.units.map (·.option.feature)).Nodup

/-- Units that list what they own, and entries that belong to them. -/
structure Coherent (r : Registry) : Prop extends r.Declares where
  methods : ∀ u ∈ r.units, u.methods = r.methodsOf u.handle
  distinct : (r.entries.map (·.method)).Nodup
  owned : ∀ e ∈ r.entries, ∃ u ∈ r.units, e.owner = some u.handle ∧ e.unit = u.name

theorem coherent_empty : Coherent {} where
  parsed := List.forall_mem_nil _
  handles := List.nodup_nil
  features := List.nodup_nil
  methods := List.forall_mem_nil _
  distinct := List.nodup_nil
  owned := List.forall_mem_nil _

variable {r r' : Registry} {x : UnitHandle} {u v : DeclaredUnit} {e : Entry}

/-! ### Units -/

theorem feature_not_mem_of_register {option : UnitOption} (hr : r.register option x = .ok r') :
    option.feature ∉ r.units.map (·.option.feature) := by
  intro hmem
  obtain ⟨u, hu, hfeature⟩ := List.mem_map.1 hmem
  unfold Registry.register at hr
  split at hr
  · cases hr
  · rename_i hnone
    exact absurd hfeature (by simpa using List.find?_eq_none.1 hnone u hu)

namespace Declares

theorem eq_of_handle_eq (h : r.Declares) (hu : u ∈ r.units) (hv : v ∈ r.units)
    (heq : u.handle = v.handle) : u = v :=
  List.inj_on_of_nodup_map h.handles hu hv heq

theorem unit?_eq_some_iff (h : r.Declares) : r.unit? x = some u ↔ u ∈ r.units ∧ u.handle = x := by
  refine ⟨fun hu => ⟨List.mem_of_find?_eq_some hu, by simpa using List.find?_some hu⟩, ?_⟩
  rintro ⟨hu, rfl⟩
  cases hfound : r.unit? u.handle with
  | none =>
    have hne : ¬u.handle = u.handle := by simpa using List.find?_eq_none.1 hfound u hu
    exact absurd rfl hne
  | some w =>
    have hw : w.handle = u.handle := by simpa using List.find?_some hfound
    rw [h.eq_of_handle_eq (List.mem_of_find?_eq_some hfound) hu hw]

theorem names (h : r.Declares) : (r.units.map (·.name)).Nodup := by
  refine List.Nodup.map_on (fun u hu v hv hname => ?_) (List.Nodup.of_map _ h.features)
  obtain ⟨text, htext⟩ := h.parsed u hu
  obtain ⟨text', htext'⟩ := h.parsed v hv
  exact List.inj_on_of_nodup_map h.features hu hv
    (UnitOption.feature_eq_of_displayName_eq htext htext' hname)

theorem register {option : UnitOption} {text : String} (h : r.Declares)
    (hparse : UnitOption.parse text = .ok option) (hx : x ∉ r.handles)
    (hr : r.register option x = .ok r') : r'.Declares := by
  have hnew := feature_not_mem_of_register hr
  have hhandles := handles_register hr
  rw [register_eq hr] at hhandles ⊢
  refine ⟨List.forall_mem_append.2 ⟨h.parsed, List.forall_mem_singleton.2 ⟨text, hparse⟩⟩, ?_, ?_⟩
  · rw [hhandles, ← List.concat_eq_append]
    exact h.handles.concat hx
  · rw [List.map_append, List.map_singleton, ← List.concat_eq_append]
    exact h.features.concat hnew

theorem modifyUnit {f : DeclaredUnit → DeclaredUnit} (h : r.Declares)
    (hhandle : ∀ u, (f u).handle = u.handle) (hoption : ∀ u, (f u).option = u.option) :
    (r.modifyUnit x f).Declares := by
  have hoptions : (r.modifyUnit x f).units.map (·.option) = r.units.map (·.option) := by
    simp only [Registry.modifyUnit, List.map_map]
    refine List.map_congr_left fun u _ => ?_
    by_cases hu : u.handle = x <;> simp [hu, hoption]
  refine ⟨fun w hw => ?_, ?_, ?_⟩
  · have hmem : w.option ∈ r.units.map (·.option) := hoptions ▸ List.mem_map_of_mem hw
    obtain ⟨u, hu, heq⟩ := List.mem_map.1 hmem
    rw [← heq]
    exact h.parsed u hu
  · rw [handles_modifyUnit hhandle]
    exact h.handles
  · have hfeatures := congrArg (List.map UnitOption.feature) hoptions
    rw [List.map_map, List.map_map] at hfeatures
    exact hfeatures ▸ h.features

end Declares

theorem exists_mem_modifyUnit {f : DeclaredUnit → DeclaredUnit}
    (hhandle : ∀ u, (f u).handle = u.handle) (hoption : ∀ u, (f u).option = u.option)
    (hu : u ∈ r.units) :
    ∃ w ∈ (r.modifyUnit x f).units, w.handle = u.handle ∧ w.name = u.name := by
  refine ⟨_, List.mem_map_of_mem hu, ?_⟩
  split
  · exact ⟨hhandle u, congrArg UnitOption.displayName (hoption u)⟩
  · exact ⟨rfl, rfl⟩

/-! ### Entries -/

namespace Coherent

/-- The unit that owns an entry is the one that lists its method. -/
theorem mem_methods_iff (h : r.Coherent) (hu : u ∈ r.units) (he : e ∈ r.entries) :
    e.method ∈ u.methods ↔ e.owner = some u.handle := by
  rw [h.methods u hu, methodsOf, List.mem_map]
  constructor
  · rintro ⟨f, hf, hmethod⟩
    obtain ⟨hf, howner⟩ := List.mem_filter.1 hf
    rw [← List.inj_on_of_nodup_map h.distinct hf he hmethod]
    simpa using howner
  · intro howner
    exact ⟨e, List.mem_filter.2 ⟨he, by simpa using howner⟩, rfl⟩

theorem methods_sublist (h : r.Coherent) (hu : u ∈ r.units) :
    u.methods.Sublist (r.entries.map (·.method)) := by
  rw [h.methods u hu]
  exact List.filter_sublist.map _

theorem mem_entries_iff (h : r.Coherent) (m : Method) :
    m ∈ r.entries.map (·.method) ↔ ∃ u ∈ r.units, m ∈ u.methods := by
  constructor
  · intro hm
    obtain ⟨e, he, rfl⟩ := List.mem_map.1 hm
    obtain ⟨u, hu, howner, -⟩ := h.owned e he
    exact ⟨u, hu, (h.mem_methods_iff hu he).2 howner⟩
  · rintro ⟨u, hu, hm⟩
    exact (h.methods_sublist hu).subset hm

theorem methods_disjoint (h : r.Coherent) :
    r.units.Pairwise fun u v => u.methods.Disjoint v.methods := by
  have hne : r.units.Pairwise fun u v => u.handle ≠ v.handle := List.pairwise_map.1 h.handles
  refine hne.imp_of_mem fun {u v} hu hv hne m hmu hmv => hne ?_
  obtain ⟨e, he, rfl⟩ := List.mem_map.1 ((h.methods_sublist hu).subset hmu)
  have howner := (h.mem_methods_iff hu he).1 hmu
  rw [(h.mem_methods_iff hv he).1 hmv, Option.some.injEq] at howner
  exact howner.symm

/-! ### Calls that succeed -/

theorem register {option : UnitOption} {text : String} (h : r.Coherent)
    (hparse : UnitOption.parse text = .ok option) (hx : x ∉ r.handles)
    (hr : r.register option x = .ok r') : r'.Coherent := by
  refine { h.toDeclares.register hparse hx hr with methods := ?_, distinct := ?_, owned := ?_ }
  · rw [register_eq hr]
    have hnone : ∀ e ∈ r.entries, e.owner ≠ some x := by
      intro e he howner
      obtain ⟨u, hu, hown, -⟩ := h.owned e he
      rw [howner, Option.some.injEq] at hown
      exact hx (List.mem_map.2 ⟨u, hu, hown.symm⟩)
    have hempty : (r.entries.filter fun e => e.owner = some x) = [] :=
      List.filter_eq_nil_iff.2 fun e he => by simpa using hnone e he
    refine List.forall_mem_append.2 ⟨h.methods, List.forall_mem_singleton.2 ?_⟩
    simp [methodsOf, hempty]
  · rw [register_eq hr]
    exact h.distinct
  · rw [register_eq hr]
    intro e he
    obtain ⟨u, hu, hown⟩ := h.owned e he
    exact ⟨u, List.mem_append_left _ hu, hown⟩

/-- Units may change all but what identifies them and what they list. -/
theorem modifyUnit {f : DeclaredUnit → DeclaredUnit} (h : r.Coherent)
    (hhandle : ∀ u, (f u).handle = u.handle) (hoption : ∀ u, (f u).option = u.option)
    (hmethods : ∀ u, (f u).methods = u.methods) : (r.modifyUnit x f).Coherent where
  toDeclares := h.toDeclares.modifyUnit hhandle hoption
  methods w hw := by
    obtain ⟨u, hu, rfl⟩ := List.mem_map.1 hw
    split
    · rw [hmethods, hhandle]
      exact h.methods u hu
    · exact h.methods u hu
  distinct := h.distinct
  owned e he := by
    obtain ⟨u, hu, howner, hunit⟩ := h.owned e he
    obtain ⟨w, hw, hwu, hname⟩ := exists_mem_modifyUnit (x := x) hhandle hoption hu
    exact ⟨w, hw, hwu ▸ howner, hname ▸ hunit⟩

end Coherent

/-- A batch that is registered adds what is new in it to the table and to the list of its unit. -/
theorem registerEntries_eq_ok {batch : List Entry} (hdistinct : (r.entries.map (·.method)).Nodup)
    (hunit : ∀ u, r.unit? x = some u → ∀ e ∈ batch, e.unit = u.name)
    (hr : r.registerEntries x batch = .ok r') :
    ∃ u fresh, r.unit? x = some u ∧ r.FreshOf u.name batch fresh ∧
      r'.entries = r.entries ++ fresh.map (·.ownedBy x) ∧
      r'.units = (r.modifyUnit x (·.listing (fresh.map (·.method)))).units := by
  unfold registerEntries at hr
  cases hu : r.unit? x with
  | none =>
    rw [hu] at hr
    cases hr
  | some u =>
    have hstart : r.FreshOf u.name [] [] :=
      ⟨List.forall_mem_nil _, fun _ _ => rfl, by simpa using hdistinct⟩
    obtain ⟨-, hok⟩ := freshEntries_end hstart (hunit u hu)
    rw [hu] at hr
    dsimp only at hr
    cases hfresh : r.freshEntries u.name [] batch with
    | error err =>
      rw [hfresh] at hr
      cases hr
    | ok fresh =>
      rw [hfresh] at hr
      cases hr
      refine ⟨u, fresh, rfl, (hok fresh hfresh).2, rfl, ?_⟩
      simp only [List.map_map]
      rfl

theorem methodsOf_append {fresh : List Entry}
    (hr : r'.entries = r.entries ++ fresh.map (·.ownedBy x))
    (y : UnitHandle) :
    r'.methodsOf y = r.methodsOf y ++ if y = x then fresh.map (·.method) else [] := by
  have howner : (fun e : Entry => decide (e.owner = some y)) ∘ (Entry.ownedBy x) =
      fun _ => decide (y = x) := by
    funext e
    simp [Entry.ownedBy, eq_comm]
  rw [methodsOf, hr, List.filter_append, List.map_append, List.filter_map, howner, List.map_map]
  by_cases hy : y = x
  · simp [methodsOf, hy, Function.comp_def, Entry.ownedBy]
  · simp [methodsOf, hy]

theorem Coherent.registerEntries {batch : List Entry} (h : r.Coherent)
    (hunit : ∀ u, r.unit? x = some u → ∀ e ∈ batch, e.unit = u.name)
    (hr : r.registerEntries x batch = .ok r') : r'.Coherent := by
  obtain ⟨u, fresh, hu, hnew, hentries, hunits⟩ := registerEntries_eq_ok h.distinct hunit hr
  obtain ⟨hmem, rfl⟩ := h.unit?_eq_some_iff.1 hu
  have hdeclares := h.toDeclares.modifyUnit (x := u.handle)
    (f := (·.listing (fresh.map (·.method)))) (fun _ => rfl) fun _ => rfl
  have howned : ∀ e ∈ r.entries ++ fresh.map (·.ownedBy u.handle),
      ∃ w ∈ r.units, e.owner = some w.handle ∧ e.unit = w.name := by
    refine List.forall_mem_append.2 ⟨h.owned, fun e he => ?_⟩
    obtain ⟨f, hf, rfl⟩ := List.mem_map.1 he
    exact ⟨u, hmem, rfl, hnew.unit f hf⟩
  refine ⟨⟨?_, ?_, ?_⟩, fun w hw => ?_, ?_, fun e he => ?_⟩
  · exact hunits ▸ hdeclares.parsed
  · rw [handles, hunits]
    exact hdeclares.handles
  · exact hunits ▸ hdeclares.features
  · rw [hunits] at hw
    obtain ⟨v, hv, rfl⟩ := List.mem_map.1 hw
    rw [methodsOf_append hentries]
    by_cases hx : v.handle = u.handle
    · simp [hx, DeclaredUnit.listing, h.methods v hv]
    · simp [hx, h.methods v hv]
  · have hmethods : (fresh.map (·.ownedBy u.handle)).map (·.method) = fresh.map (·.method) := by
      rw [List.map_map]
      rfl
    rw [hentries, List.map_append, hmethods, ← List.map_append]
    exact hnew.distinct
  · obtain ⟨w, hw, howner, hname⟩ := howned e (hentries ▸ he)
    obtain ⟨w', hw', hww, hnames⟩ := exists_mem_modifyUnit (x := u.handle)
      (f := (·.listing (fresh.map (·.method)))) (fun _ => rfl) (fun _ => rfl) hw
    rw [hunits]
    exact ⟨w', hw', hww ▸ howner, hnames ▸ hname⟩

end Registry

end AccelHost
