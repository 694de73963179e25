import AccelHost.Proofs.Coherence

/-!
What the name of a unit tells. It is the stem of the last component of the identifier, and feature
and version are what it splits into. So units are of one name exactly if both agree, and the entries
of a registry, which keep the name of their unit, are told apart by it as by its handle.
-/
namespace AccelHost

namespace UnitOption

open Text

theorem Version.bytes {s : List Char} (h : Version s) : 1 ≤ byteLength s ∧ byteLength s ≤ 64 := by
  refine ⟨byteLength_pos_iff.2 ?_, h.1⟩
  obtain hnumber | ⟨major, minor, -, -, rfl⟩ := h.2
  · exact hnumber.1
  · simp

/-- What a stem is split into has a version exactly if the stem ends with one, behind a `_` that
something stands before. -/
theorem Feature.version_eq_some_iff {s feature v : List Char} {version : Option (List Char)}
    (h : Feature s feature version) :
    version = some v ↔ Version v ∧ ∃ before, before ≠ [] ∧ s = before ++ '_' :: v := by
  constructor
  · rintro rfl
    cases h with
    | versioned hf hv => exact ⟨hv, feature, hf, rfl⟩
  · rintro ⟨hv, before, hbefore, rfl⟩
    have hsplit := splitStem_eq_iff.2 (Feature.versioned hbefore hv)
    rw [splitStem_eq_iff.2 h, Prod.mk.injEq] at hsplit
    exact hsplit.2

variable {text text' : String} {o o' : UnitOption}

theorem displayName_stem (h : parse text = .ok o) :
    ∃ name, Component o.identifier.toList name ∧ Stem name o.displayName.toList := by
  obtain ⟨-, -, hnames, -⟩ := parse_eq_ok_iff.1 h
  obtain ⟨name, s, hcomponent, -, hstem, hfeature⟩ := hnames.derived
  exact ⟨name, hcomponent, by rwa [hfeature.toList_displayName]⟩

theorem version_eq_some_iff (h : parse text = .ok o) {v : String} :
    o.version = some v ↔
      Version v.toList ∧ ∃ before, before ≠ [] ∧
        o.displayName.toList = before ++ '_' :: v.toList := by
  rw [← (feature_displayName h).version_eq_some_iff, Option.map_eq_some_iff]
  simp [String.toList_inj]

/-- An option without a version cannot be named like one with it: what follows is its version. -/
example : (parse "a_1").toOption.map (fun o => (o.feature, o.version)) = some ("a", some "1") := by
  decide +kernel

/-- A name tells the feature and the version, and nothing else of the option. -/
theorem displayName_eq_iff (h : parse text = .ok o) (h' : parse text' = .ok o') :
    o.displayName = o'.displayName ↔ o.feature = o'.feature ∧ o.version = o'.version := by
  constructor
  · intro hname
    have hsplit := splitStem_eq_iff.2 (feature_displayName h)
    rw [hname, splitStem_eq_iff.2 (feature_displayName h'), Prod.mk.injEq] at hsplit
    obtain ⟨hfeature, hversion⟩ := hsplit
    refine ⟨(String.toList_inj.1 hfeature).symm, ?_⟩
    exact (Option.map_injective (fun _ _ => String.toList_inj.1) hversion).symm
  · rintro ⟨hfeature, hversion⟩
    rw [displayName, displayName, hfeature, hversion]

end UnitOption

namespace Registry

variable {r r' : Registry} {x : UnitHandle} {u : DeclaredUnit} {e : Entry}

theorem name_not_mem_of_register {option : UnitOption} {text : String}
    (hparsed : ∀ u ∈ r.units, ∃ text, UnitOption.parse text = .ok u.option)
    (hparse : UnitOption.parse text = .ok option) (hr : r.register option x = .ok r') :
    option.displayName ∉ r.units.map (·.name) := by
  intro hmem
  obtain ⟨u, hu, hname⟩ := List.mem_map.1 hmem
  obtain ⟨text', hparse'⟩ := hparsed u hu
  obtain ⟨hfeature, -⟩ := (UnitOption.displayName_eq_iff hparse' hparse).1 hname
  exact feature_not_mem_of_register hr (List.mem_map.2 ⟨u, hu, hfeature⟩)

end Registry

namespace UnitOption

open Text

/-- The name of a unit is a stem that feature and version are read from, and it tells them apart: no
two options of one name differ in either, and no unit is declared under the name of another. -/
theorem displayName_identifies :
    (∀ text o, parse text = .ok o →
      (∃ name, Component o.identifier.toList name ∧ Stem name o.displayName.toList) ∧
      (∀ v, o.version = some v →
        o.displayName.toList = o.feature.toList ++ '_' :: v.toList ∧ '_' ∉ v.toList ∧
          Version v.toList ∧ 1 ≤ byteLength v.toList ∧ byteLength v.toList ≤ 64) ∧
      (o.version = none → o.displayName = o.feature ∧
        ∀ before v, o.displayName.toList = before ++ '_' :: v → before ≠ [] → ¬ Version v)) ∧
    (∀ text text' o o', parse text = .ok o → parse text' = .ok o' →
      (o.displayName = o'.displayName ↔ o.feature = o'.feature ∧ o.version = o'.version)) ∧
    (∀ (r r' : Registry) x text o, (∀ u ∈ r.units, ∃ text, parse text = .ok u.option) →
      parse text = .ok o → r.register o x = .ok r' → o.displayName ∉ r.units.map (·.name)) := by
  refine ⟨fun text o h => ⟨displayName_stem h, fun v hv => ?_, fun hv => ?_⟩,
    fun _ _ _ _ => displayName_eq_iff, fun _ _ _ _ _ => Registry.name_not_mem_of_register⟩
  · obtain ⟨hversion, -⟩ := (version_eq_some_iff h).1 hv
    refine ⟨by simp [displayName, hv], hversion.not_mem_underscore, hversion, hversion.bytes⟩
  · refine ⟨by rw [displayName, hv], fun before v hname hbefore hversion => ?_⟩
    have hsome : o.version = some (String.ofList v) :=
      (version_eq_some_iff h).2 ⟨by simpa using hversion, before, hbefore, by simpa using hname⟩
    rw [hv] at hsome
    cases hsome

end UnitOption

end AccelHost
