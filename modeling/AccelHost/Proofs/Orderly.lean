import AccelHost.Proofs.Around

/-!
Order among units. A unit is in one place at a time: in the hands of work in progress, pending, in
use by a runtime, or in a bare registry. What is pending or in use has the modules that it was
loaded from, what is bare has none, and only work that has a unit in hand changes its module. The
flag that the entries of a unit look at tells whether its module is there.
-/
namespace AccelHost

namespace Host

def held (h : Host) : List UnitHandle :=
  h.pending.elim [] Registry.handles ++
    (h.runtime.elim [] (fun r => r.registry.handles) ++ h.bare.handles)

/-- A runtime in use: its units are active, it publishes what they registered, and what is compiled
belongs to that. -/
structure Serves (h : Host) (r : Runtime) : Prop where
  registry : h.Holds .active r.registry
  published : r.replacements.published = r.registry
  unfinished : r.finalized = false
  serial : r.replacements.id < h.serial
  compiled : ∀ method c, (method, c) ∈ r.replacements.compiled →
    ∃ e func, r.replacements.published.find? method = some e ∧ h.native? e = some func ∧
      c = ⟨.ofEntry e func, .cached r.replacements.id method⟩

/-- A snapshot of the bare registry. None of its entries can be compiled. -/
structure Exposes (h : Host) (s : Replacements) : Prop where
  owned : ∀ e ∈ s.published.entries, ∃ x ∈ h.bare.handles, e.owner = some x
  serial : s.id < h.serial
  compiled : s.compiled = []

/-- A host whose registries are in order, where handles are given up to some number. -/
structure Orderly (next : UnitHandle) (h : Host) : Prop where
  modules : ∀ x, next ≤ x → h.modules.get? x = none
  loaded : ∀ x, h.unitLoaded x = (h.modules.get? x).isSome
  pending : ∀ r, h.pending = some r → h.Holds .activePending r
  runtime : ∀ r, h.runtime = some r → h.Serves r
  bare : h.bare.Owned
  bareModules : ∀ x ∈ h.bare.handles, h.modules.get? x = none
  exposed : ∀ s, h.bareReplacements = some s → h.Exposes s
  apart : ∀ r s, h.runtime = some r → h.bareReplacements = some s → r.replacements.id ≠ s.id

/-- A host in which registries and modules are the same. -/
structure Same (h h' : Host) : Prop where
  source : h'.source = h.source
  modules : h'.modules = h.modules
  loaded : h'.loaded = h.loaded
  pending : h'.pending = h.pending
  runtime : h'.runtime = h.runtime
  bare : h'.bare = h.bare
  bareReplacements : h'.bareReplacements = h.bareReplacements
  provided : ∀ id a, h.provided.get? id = some a → h'.provided.get? id = some a
  serial : h.serial ≤ h'.serial

theorem Same.refl (h : Host) : h.Same h where
  source := rfl
  modules := rfl
  loaded := rfl
  pending := rfl
  runtime := rfl
  bare := rfl
  bareReplacements := rfl
  provided _ _ ha := ha
  serial := Nat.le_refl _

theorem Waited.same {h h' : Host} (w : h.Waited h') : h.Same h' := by
  rw [w.rest]
  exact { Same.refl h with }

variable {h h' : Host}

theorem Same.held_eq (s : h.Same h') : h'.held = h.held := by
  rw [held, s.pending, s.runtime, s.bare, held]

theorem Holds.mono {state : UnitState} {r : Registry} (hr : h.Holds state r)
    (hs : h'.source = h.source)
    (hm : ∀ x ∈ r.handles, h'.modules.get? x = h.modules.get? x) : h'.Holds state r := by
  refine ⟨hr.1, fun u hu => ?_⟩
  obtain ⟨hst, m, hl, hg⟩ := hr.2 u hu
  refine ⟨hst, m, by rw [hs, hl], ?_⟩
  rw [hm u.handle (List.mem_map_of_mem hu), hg]

theorem native?_mono {e : Entry} {func : CodeRef}
    (hp : ∀ id a, h.provided.get? id = some a → h'.provided.get? id = some a)
    (hf : h.native? e = some func) : h'.native? e = some func := by
  unfold native? at hf ⊢
  split at hf
  · exact hf
  · rw [Option.join_eq_some_iff] at hf
    rw [hp _ _ hf]
    rfl

theorem Serves.mono {r : Runtime} (hr : h.Serves r) (hs : h'.source = h.source)
    (hm : ∀ x ∈ r.registry.handles, h'.modules.get? x = h.modules.get? x)
    (hp : ∀ id a, h.provided.get? id = some a → h'.provided.get? id = some a)
    (hl : h.serial ≤ h'.serial) : h'.Serves r where
  registry := hr.registry.mono hs hm
  published := hr.published
  unfinished := hr.unfinished
  serial := Nat.lt_of_lt_of_le hr.serial hl
  compiled method c hc := by
    obtain ⟨e, func, he, hf, hcall⟩ := hr.compiled method c hc
    exact ⟨e, func, he, native?_mono hp hf, hcall⟩

theorem Exposes.mono {s : Replacements} (hs : h.Exposes s)
    (hb : ∀ x ∈ h.bare.handles, x ∈ h'.bare.handles) (hl : h.serial ≤ h'.serial) :
    h'.Exposes s where
  owned e he := by
    obtain ⟨x, hx, ho⟩ := hs.owned e he
    exact ⟨x, hb x hx, ho⟩
  serial := Nat.lt_of_lt_of_le hs.serial hl
  compiled := hs.compiled

theorem Orderly.later {next next' : UnitHandle} (ho : h.Orderly next) (hn : next ≤ next') :
    h.Orderly next' :=
  { ho with modules := fun x hx => ho.modules x (Nat.le_trans hn hx) }

theorem Orderly.of_same {next : UnitHandle} (ho : h.Orderly next) (hs : h.Same h') :
    h'.Orderly next where
  modules x hx := by rw [hs.modules, ho.modules x hx]
  loaded x := by rw [unitLoaded, hs.loaded, hs.modules, ← ho.loaded x, unitLoaded]
  pending r hr := by
    rw [hs.pending] at hr
    exact (ho.pending r hr).mono hs.source fun x _ => by rw [hs.modules]
  runtime r hr := by
    rw [hs.runtime] at hr
    exact (ho.runtime r hr).mono hs.source (fun x _ => by rw [hs.modules]) hs.provided hs.serial
  bare := by rw [hs.bare]; exact ho.bare
  bareModules x hx := by
    rw [hs.bare] at hx
    rw [hs.modules, ho.bareModules x hx]
  exposed s hb := by
    rw [hs.bareReplacements] at hb
    exact (ho.exposed s hb).mono (by rw [hs.bare]; exact fun _ h => h) hs.serial
  apart r s hr hb := by
    rw [hs.runtime] at hr
    rw [hs.bareReplacements] at hb
    exact ho.apart r s hr hb

theorem Orderly.of_modules {next : UnitHandle} {t : Keyed UnitHandle UnitModule}
    {f : Keyed UnitHandle Bool} {x : UnitHandle} (ho : h.Orderly next) (hx : x ∉ h.held)
    (hn : x < next) (ht : ∀ y, y ≠ x → t.get? y = h.modules.get? y)
    (hf : ∀ y, y ≠ x → f.get? y = h.loaded.get? y)
    (hfx : (f.get? x).getD false = (t.get? x).isSome) :
    ({ h with modules := t, loaded := f } : Host).Orderly next := by
  simp only [held, List.mem_append, not_or] at hx
  refine { ho with
    modules := ?_, loaded := ?_, pending := ?_, runtime := ?_, bareModules := ?_, exposed := ?_ }
  rotate_left
  · intro y
    by_cases hy : y = x
    · rw [hy, unitLoaded, hfx]
    · rw [ht y hy, ← ho.loaded y, unitLoaded, hf y hy, unitLoaded]
  rotate_right
  · intro y hy
    rw [ht y (Nat.ne_of_gt (Nat.lt_of_lt_of_le hn hy)), ho.modules y hy]
  · intro r hr
    refine (ho.pending r hr).mono rfl fun y hy => ht y ?_
    rintro rfl
    exact hx.1 (by rw [hr]; exact hy)
  · intro r hr
    refine (ho.runtime r hr).mono rfl (fun y hy => ht y ?_) (fun _ _ ha => ha) (Nat.le_refl _)
    rintro rfl
    exact hx.2.1 (by rw [hr]; exact hy)
  · intro y hy
    have hne : y ≠ x := by
      rintro rfl
      exact hx.2.2 hy
    exact (ht y hne).trans (ho.bareModules y hy)
  · exact fun s hs => (ho.exposed s hs).mono (fun _ h => h) (Nat.le_refl _)

theorem Orderly.retire {next : UnitHandle} (ho : h.Orderly next) :
    ({ h with runtime := none } : Host).Orderly next :=
  { ho with
    pending := fun r hr => (ho.pending r hr).mono rfl fun _ _ => rfl
    runtime := fun _ hr => by cases hr
    exposed := fun s hs => (ho.exposed s hs).mono (fun _ h => h) (Nat.le_refl _)
    apart := fun _ _ hr => by cases hr }

theorem Orderly.serve {next : UnitHandle} {r : Registry} (ho : h.Orderly next)
    (hr : h.Holds .active r) : (h.serve r).Orderly next where
  modules := ho.modules
  loaded := ho.loaded
  pending r hp := (ho.pending r hp).mono rfl fun _ _ => rfl
  runtime r' hr' := by
    cases hr'
    exact ⟨hr.mono rfl fun _ _ => rfl, rfl, rfl, Nat.lt_succ_self _, fun _ _ hc => by cases hc⟩
  bare := ho.bare
  bareModules := ho.bareModules
  exposed s hs := (ho.exposed s hs).mono (fun _ h => h) (Nat.le_succ _)
  apart r s hr' hs := by
    cases hr'
    exact Nat.ne_of_gt (ho.exposed s hs).serial

theorem Orderly.suspend {next : UnitHandle} {r : Option Registry} (ho : h.Orderly next)
    (hr : ∀ r', r = some r' → h.Holds .activePending r') :
    ({ h with pending := r } : Host).Orderly next :=
  { ho with
    pending := fun r' hr' => (hr r' hr').mono rfl fun _ _ => rfl
    runtime := fun r hr =>
      (ho.runtime r hr).mono rfl (fun _ _ => rfl) (fun _ _ ha => ha) (Nat.le_refl _)
    exposed := fun s hs => (ho.exposed s hs).mono (fun _ h => h) (Nat.le_refl _) }

theorem Orderly.ofBare {next : UnitHandle} {bare : Registry} (ho : h.Orderly next)
    (hb : bare.Owned) (hm : ∀ x ∈ bare.handles, h.modules.get? x = none)
    (hx : ∀ x ∈ h.bare.handles, x ∈ bare.handles) : ({ h with bare } : Host).Orderly next :=
  { ho with
    pending := fun r hr => (ho.pending r hr).mono rfl fun _ _ => rfl
    runtime := fun r hr =>
      (ho.runtime r hr).mono rfl (fun _ _ => rfl) (fun _ _ ha => ha) (Nat.le_refl _)
    bare := hb
    bareModules := hm
    exposed := fun s hs => (ho.exposed s hs).mono hx (Nat.le_refl _) }

theorem Orderly.expose {next : UnitHandle} {published : Registry} (ho : h.Orderly next)
    (hp : published = {} ∨ published = h.bare) : (h.expose published).Orderly next where
  modules := ho.modules
  loaded := ho.loaded
  pending r hr := (ho.pending r hr).mono rfl fun _ _ => rfl
  runtime r hr :=
    (ho.runtime r hr).mono rfl (fun _ _ => rfl) (fun _ _ ha => ha) (Nat.le_succ _)
  bare := ho.bare
  bareModules := ho.bareModules
  exposed s hs := by
    cases hs
    refine ⟨fun e he => ?_, Nat.lt_succ_self _, rfl⟩
    rcases hp with rfl | rfl
    · cases he
    · exact ho.bare e he
  apart r s hr hs := by
    cases hs
    exact Nat.ne_of_lt (ho.runtime r hr).serial

/-- An entry of a unit is loaded as long as the unit has its module. -/
theorem Orderly.isLoaded_eq {next : UnitHandle} {e : Entry} {x : UnitHandle} (ho : h.Orderly next)
    (he : e.owner = some x) : h.isLoaded e = (h.modules.get? x).isSome := by
  rw [isLoaded, he]
  exact ho.loaded x

theorem Orderly.isLoaded_of_mem {next : UnitHandle} {r : Runtime} {e : Entry} (ho : h.Orderly next)
    (hr : h.runtime = some r) (he : e ∈ r.replacements.published.entries) :
    h.isLoaded e = true := by
  have hserves := ho.runtime r hr
  rw [hserves.published] at he
  obtain ⟨x, hx, hown⟩ := hserves.registry.1 e he
  obtain ⟨u, hu, rfl⟩ := List.mem_map.1 hx
  obtain ⟨_, m, _, hm⟩ := hserves.registry.2 u hu
  rw [ho.isLoaded_eq hown, hm, Option.isSome_some]

theorem Orderly.not_isLoaded {next : UnitHandle} {s : Replacements} {e : Entry}
    (ho : h.Orderly next) (hs : h.bareReplacements = some s) (he : e ∈ s.published.entries) :
    h.isLoaded e = false := by
  obtain ⟨x, hx, hown⟩ := (ho.exposed s hs).owned e he
  rw [ho.isLoaded_eq hown, ho.bareModules x hx, Option.isSome_none]

theorem held_modifyReplacements {f : Replacements → Replacements} :
    (h.modifyReplacements f).held = h.held := by
  unfold modifyReplacements held
  cases h.runtime <;> rfl

theorem modules_modifyReplacements {f : Replacements → Replacements} :
    (h.modifyReplacements f).modules = h.modules := by
  unfold modifyReplacements
  cases h.runtime <;> rfl

theorem loaded_modifyReplacements {f : Replacements → Replacements} :
    (h.modifyReplacements f).loaded = h.loaded := by
  unfold modifyReplacements
  cases h.runtime <;> rfl

theorem Orderly.cache {next : UnitHandle} {s : Replacements} {method : Method} {e : Entry}
    {func : CodeRef} (ho : h.Orderly next) (hs : h.replacements? = some s)
    (he : s.published.find? method = some e) (hl : h.isLoaded e = true)
    (hf : h.native? e = some func) :
    (h.modifyReplacements fun s => { s with
      compiled := s.compiled.set method ⟨.ofEntry e func, .cached s.id method⟩ }).Orderly next := by
  unfold replacements? at hs
  cases hr : h.runtime with
  | none =>
    rw [hr] at hs
    rw [ho.not_isLoaded hs (Registry.mem_of_find? he)] at hl
    cases hl
  | some r =>
    rw [hr] at hs
    cases hs
    simp only [modifyReplacements, hr]
    have hserves := (ho.runtime r hr)
    refine { ho with pending := ?_, runtime := ?_, exposed := ?_, apart := ?_ }
    · exact fun r hr => (ho.pending r hr).mono rfl fun _ _ => rfl
    · intro r' hr'
      cases hr'
      refine ⟨hserves.registry.mono rfl fun _ _ => rfl, hserves.published, hserves.unfinished,
        hserves.serial, fun m c hc => ?_⟩
      rcases Keyed.mem_set hc with ⟨rfl, rfl⟩ | hc
      · exact ⟨e, func, he, hf, rfl⟩
      · exact hserves.compiled m c hc
    · exact fun s hs => (ho.exposed s hs).mono (fun _ h => h) (Nat.le_refl _)
    · intro r' s hr' hs
      cases hr'
      exact ho.apart r s hr hs

theorem held_ofProgram (p : Program) : (ofProgram p).held = [] := rfl

theorem orderly_ofProgram (p : Program) (next : UnitHandle) : (ofProgram p).Orderly next where
  modules _ _ := rfl
  loaded _ := rfl
  pending _ h := by cases h
  runtime _ h := by cases h
  bare _ h := by cases h
  bareModules _ h := by cases h
  exposed _ h := by cases h
  apart _ _ h := by cases h

end Host

end AccelHost
