import AccelHost.Proofs.Coherence
import AccelHost.Machine

/-!
Registries under any sequence of calls. A ledger keeps beside a registry what the calls made of it:
where the unit of each feature stands, and all that was registered. A call that fails leaves it as
it was.
-/
namespace AccelHost

inductive RegistryCall where
  /-- Declares a unit by its option. Some handles were given to other registries meanwhile. -/
  | declare (text : String) (elsewhere : Nat)
  /-- Registers entries for a unit, under the name of that unit. -/
  | enter (handle : UnitHandle) (batch : List Entry)

structure Ledger where
  /-- The next handle of the process. -/
  next : UnitHandle
  registry : Registry := {}
  /-- Each feature, and the place of its unit among the units. -/
  places : Keyed String Nat := []
  /-- The entries of all batches that were registered, repeats among them. -/
  admitted : List Entry := []

namespace Ledger

def nameOf (s : Ledger) (x : UnitHandle) : String := ((s.registry.unit? x).map (·.name)).getD ""

def declare (s : Ledger) (text : String) (elsewhere : Nat) : Ledger :=
  match UnitOption.parse text with
  | .error _ => s
  | .ok option =>
    match s.registry.register option (s.next + elsewhere) with
    | .error _ => s
    | .ok registry =>
      { s with
        next := s.next + elsewhere + 1
        registry
        places := s.places.set option.feature s.registry.units.length }

def enter (s : Ledger) (x : UnitHandle) (batch : List Entry) : Ledger :=
  let batch := batch.map fun e => { e with unit := s.nameOf x }
  match s.registry.registerEntries x batch with
  | .error _ => s
  | .ok registry => { s with registry, admitted := s.admitted ++ batch.map (·.ownedBy x) }

def perform (s : Ledger) : RegistryCall → Ledger
  | .declare text elsewhere => s.declare text elsewhere
  | .enter x batch => s.enter x batch

/-- The ledger of some calls, where all handles from `next` on are free. -/
def run (next : UnitHandle) (calls : List RegistryCall) : Ledger := calls.foldl perform { next }

structure Kept (s : Ledger) : Prop where
  coherent : s.registry.Coherent
  below : ∀ x ∈ s.registry.handles, x < s.next
  places : s.places = (s.registry.units.map (·.option.feature)).zipIdx
  collects : s.registry.Collects s.admitted

namespace Kept

variable {s : Ledger}

theorem start (next : UnitHandle) : Kept { next } :=
  ⟨Registry.coherent_empty, List.forall_mem_nil _, rfl, Registry.collects_empty []⟩

theorem keys_places (h : s.Kept) : s.places.keys = s.registry.units.map (·.option.feature) := by
  rw [h.places]
  exact List.zipIdx_map_fst 0 _

theorem place_iff (h : s.Kept) (feature : String) (i : Nat) :
    s.places.get? feature = some i ↔
      ∃ u, s.registry.units[i]? = some u ∧ u.option.feature = feature := by
  have hdistinct : s.places.keys.Nodup := h.keys_places ▸ h.coherent.features
  rw [Keyed.get?_eq_some_iff_mem hdistinct, h.places, List.mem_zipIdx_iff_getElem?,
    List.getElem?_map, Option.map_eq_some_iff]

theorem place_eq_none_iff (h : s.Kept) (feature : String) :
    s.places.get? feature = none ↔ feature ∉ s.registry.units.map (·.option.feature) := by
  rw [Keyed.get?_eq_none_iff, h.keys_places]

theorem register_eq (h : s.Kept) (option : UnitOption) (x : UnitHandle) :
    s.registry.register option x =
      match (s.places.get? option.feature).bind (s.registry.units[·]?) with
      | some u => .error (.duplicateUnit option.feature u.option.text option.text)
      | none => .ok { s.registry with units := s.registry.units ++ [{ handle := x, option }] } := by
  have hfind : (s.registry.units.find? fun u => u.option.feature = option.feature) =
      (s.places.get? option.feature).bind (s.registry.units[·]?) := by
    cases hplace : s.places.get? option.feature with
    | none =>
      have hnot := (h.place_eq_none_iff _).1 hplace
      refine List.find?_eq_none.2 fun u hu => ?_
      have hne : u.option.feature ≠ option.feature := fun heq => hnot (List.mem_map.2 ⟨u, hu, heq⟩)
      simpa using hne
    | some i =>
      obtain ⟨u, hu, hfeature⟩ := (h.place_iff _ _).1 hplace
      rw [Option.bind_some, hu]
      cases hfound : s.registry.units.find? fun u => u.option.feature = option.feature with
      | none =>
        have hne := List.find?_eq_none.1 hfound u (List.mem_of_getElem? hu)
        exact absurd hfeature (by simpa using hne)
      | some v =>
        have hv : v.option.feature = option.feature := by simpa using List.find?_some hfound
        exact congrArg some (List.inj_on_of_nodup_map h.coherent.features
          (List.mem_of_find?_eq_some hfound) (List.mem_of_getElem? hu) (hv.trans hfeature.symm))
  rw [← hfind]
  rfl

theorem declare (h : s.Kept) (text : String) (elsewhere : Nat) :
    (s.declare text elsewhere).Kept := by
  unfold Ledger.declare
  split
  · exact h
  · rename_i option hparse
    split
    · exact h
    · rename_i registry hr
      have hfresh : s.next + elsewhere ∉ s.registry.handles := fun hmem =>
        Nat.not_lt.2 (Nat.le_add_right _ _) (h.below _ hmem)
      have hcoherent := h.coherent.register hparse hfresh hr
      have hnew : option.feature ∉ s.registry.units.map (·.option.feature) := by
        have hdistinct := hcoherent.features
        rw [Registry.register_eq hr, List.map_append] at hdistinct
        exact fun hmem => List.disjoint_of_nodup_append hdistinct hmem (by simp)
      refine ⟨hcoherent, fun x hx => ?_, ?_, ?_⟩
      · rw [Registry.handles_register hr, List.mem_append, List.mem_singleton] at hx
        obtain hx | rfl := hx
        · exact Nat.lt_succ_of_lt (Nat.lt_add_right elsewhere (h.below x hx))
        · exact Nat.lt_succ_self _
      · rw [Registry.register_eq hr, List.map_append, List.zipIdx_append, ← h.places]
        refine (Keyed.set_of_not_mem_keys (h.keys_places ▸ hnew)).trans ?_
        simp
      · rw [Registry.register_eq hr]
        exact ⟨h.collects.first, h.collects.distinct⟩

theorem enter (h : s.Kept) (x : UnitHandle) (batch : List Entry) :
    (s.enter x batch).Kept := by
  have hunit : ∀ u, s.registry.unit? x = some u →
      ∀ e ∈ batch.map fun e => { e with unit := s.nameOf x }, e.unit = u.name := by
    intro u hu e he
    obtain ⟨f, -, rfl⟩ := List.mem_map.1 he
    simp [nameOf, hu]
  unfold Ledger.enter
  dsimp only
  generalize batch.map (fun e => { e with unit := s.nameOf x }) = batch at hunit
  cases hr : s.registry.registerEntries x batch with
  | error err => exact h
  | ok registry =>
    obtain ⟨u, -, hu, -, -, -⟩ := Registry.registerEntries_eq_ok h.coherent.distinct hunit hr
    have hextends := Registry.extends_of_registerEntries hr
    refine ⟨h.coherent.registerEntries hunit hr, ?_, ?_, ?_⟩
    · change ∀ y ∈ registry.handles, y < s.next
      rw [hextends.handles_eq]
      exact h.below
    · have hfeatures := congrArg (List.map (·.option.feature)) hextends.units
      simp only [List.map_map, Function.comp_def] at hfeatures
      change s.places = (registry.units.map (·.option.feature)).zipIdx
      rw [hfeatures]
      exact h.places
    · exact ((Registry.registerEntries_end hu (hunit u hu) h.collects).2 registry hr).2

theorem perform (h : s.Kept) : (c : RegistryCall) → (s.perform c).Kept
  | .declare text elsewhere => h.declare text elsewhere
  | .enter x batch => h.enter x batch

theorem foldl (h : s.Kept) (calls : List RegistryCall) : (calls.foldl Ledger.perform s).Kept := by
  induction calls generalizing s with
  | nil => exact h
  | cons c calls ih => exact ih (h.perform c)

end Kept

/-- No call takes from what was registered. -/
theorem admitted_perform (s : Ledger) (c : RegistryCall) :
    ∃ es, (s.perform c).admitted = s.admitted ++ es := by
  cases c with
  | declare text elsewhere =>
    refine ⟨[], ?_⟩
    rw [perform, declare]
    split
    · simp
    · split <;> simp
  | enter x batch =>
    rw [perform, enter]
    split
    · exact ⟨[], by simp⟩
    · exact ⟨_, rfl⟩

theorem admitted_foldl (s : Ledger) (calls : List RegistryCall) :
    ∃ es, (calls.foldl perform s).admitted = s.admitted ++ es := by
  induction calls generalizing s with
  | nil => exact ⟨[], by simp⟩
  | cons c calls ih =>
    obtain ⟨es, hes⟩ := s.admitted_perform c
    obtain ⟨es', hes'⟩ := ih (s.perform c)
    exact ⟨es ++ es', by rw [List.foldl_cons, hes', hes, List.append_assoc]⟩

/-- All parts of a registry say the same of it. -/
structure Consistent (s : Ledger) : Prop where
  handles : (s.registry.units.map (·.handle)).Nodup
  features : (s.registry.units.map (·.option.feature)).Nodup
  names : (s.registry.units.map (·.name)).Nodup
  /-- The place of a feature is that of the unit with it. -/
  places : ∀ feature i, s.places.get? feature = some i ↔
    ∃ u, s.registry.units[i]? = some u ∧ u.option.feature = feature
  /-- A unit is declared unless its feature has a place. -/
  declares : ∀ option x, s.registry.register option x =
    match (s.places.get? option.feature).bind (s.registry.units[·]?) with
    | some u => .error (.duplicateUnit option.feature u.option.text option.text)
    | none => .ok { s.registry with units := s.registry.units ++ [{ handle := x, option }] }
  keys : (s.registry.entries.map (·.method)).Nodup
  lists : ∀ u ∈ s.registry.units, u.methods.Nodup
  disjoint : s.registry.units.Pairwise fun u v => u.methods.Disjoint v.methods
  listed : ∀ m, m ∈ s.registry.entries.map (·.method) ↔ ∃ u ∈ s.registry.units, m ∈ u.methods
  ordered : ∀ u ∈ s.registry.units, u.methods.Sublist (s.registry.entries.map (·.method))
  /-- An entry is told under the name of the unit that lists it, and its flag is that of the unit.
  -/
  owned : ∀ u ∈ s.registry.units, ∀ e ∈ s.registry.entries, e.method ∈ u.methods →
    e.unit = u.name ∧ ∀ h : Host, h.isLoaded e = h.unitLoaded u.handle
  first : ∀ m, s.registry.find? m = Registry.entryOf? m s.admitted

theorem Kept.consistent {s : Ledger} (h : s.Kept) : s.Consistent where
  handles := h.coherent.handles
  features := h.coherent.features
  names := h.coherent.names
  places := h.place_iff
  declares := h.register_eq
  keys := h.coherent.distinct
  lists _ hu := h.coherent.distinct.sublist (h.coherent.methods_sublist hu)
  disjoint := h.coherent.methods_disjoint
  listed := h.coherent.mem_entries_iff
  ordered _ hu := h.coherent.methods_sublist hu
  owned u hu e he hm := by
    have howner := (h.coherent.mem_methods_iff hu he).1 hm
    obtain ⟨v, hv, hown, hunit⟩ := h.coherent.owned e he
    rw [howner, Option.some.injEq] at hown
    rw [h.coherent.eq_of_handle_eq hu hv hown]
    refine ⟨hunit, fun host => ?_⟩
    rw [Host.isLoaded, howner, hown]
  first := h.collects.first

/-- Whatever a registry is asked, its parts agree, and the entry of a method is the first that was
registered for it and stays so. -/
theorem run_consistent (next : UnitHandle) (calls : List RegistryCall) :
    (run next calls).Consistent ∧
      ∀ more m e, (run next calls).registry.find? m = some e →
        (run next (calls ++ more)).registry.find? m = some e := by
  have hkept : ∀ calls, (run next calls).Kept := fun calls => (Kept.start next).foldl calls
  refine ⟨(hkept calls).consistent, fun more m e he => ?_⟩
  rw [(hkept calls).collects.first] at he
  rw [(hkept _).collects.first]
  obtain ⟨es, hes⟩ := (run next calls).admitted_foldl more
  rw [run, List.foldl_append, ← run, hes]
  exact Registry.entryOf?_append he

/-- A batch for a method that another unit has is refused as a whole, and a repeat changes
nothing. -/
example :
    let entry := fun name : String => ({
      unit := "", method := ⟨"Sum", name, "()V"⟩, nativeName := name,
      target := .direct ⟨none, name⟩,
      convention := ⟨false, [], .void⟩ } : Entry)
    let s := run 1 [.declare "libA_1" 0, .declare "libB" 2, .declare "libA_2" 0,
      .enter 1 [entry "add"], .enter 4 [entry "sub", entry "add"], .enter 1 [entry "add"]]
    s.registry.units.map (fun u => (u.handle, u.name, u.methods.map (·.name))) =
      [(1, "libA_1", ["add"]), (4, "libB", [])] := by
  decide +kernel

end Ledger

end AccelHost
