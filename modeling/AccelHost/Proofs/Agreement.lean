import AccelHost.Proofs.Registrations
import Mathlib.Data.List.Find
import Mathlib.Data.List.Pairwise
import Mathlib.Data.List.Perm.Basic

/-!
Entries that agree. Registrations succeed one after another if and only if any two of their entries
agree, and whether they do is no matter of order. Which entry a method comes to have is no matter of
order either, as long as each unit keeps the order of its own entries.
-/
namespace AccelHost

namespace Entry

/-- An entry before any unit has registered it. -/
def bare (e : Entry) : Entry := { e with owner := none }

/-- Entries that do not conflict: for one method, they are of one unit, and call the same code in
the same way. -/
def Agrees (e f : Entry) : Prop := e.method = f.method → e.unit = f.unit ∧ e.sameTarget f = true

variable {e f g : Entry} {x : UnitHandle}

theorem sameTarget_iff :
    e.sameTarget f = true ↔ e.target = f.target ∧ e.convention = f.convention := by
  simp [sameTarget]

theorem agrees_refl (e : Entry) : e.Agrees e := fun _ => ⟨rfl, sameTarget_iff.2 ⟨rfl, rfl⟩⟩

theorem Agrees.symm (h : e.Agrees f) : f.Agrees e := fun hm => by
  obtain ⟨hunit, hsame⟩ := h hm.symm
  obtain ⟨ht, hc⟩ := sameTarget_iff.1 hsame
  exact ⟨hunit.symm, sameTarget_iff.2 ⟨ht.symm, hc.symm⟩⟩

instance : Std.Symm Agrees := ⟨fun _ _ h => h.symm⟩

@[simp] theorem bare_ownedBy : (e.ownedBy x).bare = e.bare := rfl

theorem pairwise_agrees_congr {es fs : List Entry} (h : es.map bare = fs.map bare) :
    es.Pairwise Agrees ↔ fs.Pairwise Agrees := by
  have hbare (gs : List Entry) : (gs.map bare).Pairwise Agrees ↔ gs.Pairwise Agrees :=
    List.pairwise_map
  rw [← hbare es, h, hbare]

end Entry

namespace Registry

variable {before es : List Entry} {e : Entry}

theorem conflict?_eq_none_iff (hb : before.Pairwise Entry.Agrees) :
    conflict? e.unit before e = none ↔ ∀ f ∈ before, f.Agrees e := by
  unfold conflict?
  cases hfirst : entryOf? e.method before with
  | none =>
    refine iff_of_true rfl fun f hf hmethod => absurd ?_ (method_not_mem_of_entryOf? hfirst)
    exact hmethod ▸ List.mem_map_of_mem hf
  | some other =>
    have hother := List.mem_of_find?_eq_some hfirst
    have hmethod := entryOf?_method hfirst
    constructor
    · intro h f hf hm
      have hfits : other.unit = e.unit ∧ other.sameTarget e = true := by
        by_contra hne
        simp [hne] at h
      -- The first entry of the method stands for all others.
      have hsame : f.Agrees other := hb.forall_of_forall (fun g _ => g.agrees_refl) hf hother
      obtain ⟨hunit, htarget⟩ := hsame (hm.trans hmethod.symm)
      obtain ⟨ht, hc⟩ := Entry.sameTarget_iff.1 htarget
      obtain ⟨ht', hc'⟩ := Entry.sameTarget_iff.1 hfits.2
      exact ⟨hunit.trans hfits.1, Entry.sameTarget_iff.2 ⟨ht.trans ht', hc.trans hc'⟩⟩
    · intro h
      exact if_pos (h other hother hmethod)

/-- A batch of a unit is free of conflicts if any two entries agree then. -/
theorem conflicts_eq_nil_iff {unit : String} (hb : before.Pairwise Entry.Agrees)
    (hunit : ∀ e ∈ es, e.unit = unit) :
    conflicts unit before es = [] ↔ (before ++ es).Pairwise Entry.Agrees := by
  induction es generalizing before with
  | nil => simpa [conflicts] using hb
  | cons e es ih =>
    obtain ⟨he, hes⟩ := List.forall_mem_cons.1 hunit
    subst he
    have hstep : (before ++ [e]).Pairwise Entry.Agrees ↔ conflict? e.unit before e = none := by
      rw [conflict?_eq_none_iff hb, List.pairwise_append]
      simp [hb]
    have hsplit : before ++ e :: es = before ++ [e] ++ es := List.append_cons before e es
    rw [conflicts, List.append_eq_nil_iff, Option.toList_eq_nil_iff, Option.map_eq_none_iff,
      ← hstep, hsplit]
    constructor
    · rintro ⟨hfirst, hrest⟩
      exact (ih hfirst hes).1 hrest
    · intro h
      have hfirst := (List.pairwise_append.1 h).1
      exact ⟨hfirst, (ih hfirst hes).2 h⟩

end Registry

/-! ### Registrations -/

/-- The entry that a registration is about, if it passes the check of its unit. -/
def checked? (unit : String) (reg : Option RawEntry) : Option Entry :=
  reg.bind fun raw => (raw.check unit).toOption

/-- What stands against registrations of a unit, if all that may be accepted are. -/
def standing (u : DeclaredUnit) (before : List Entry) : List (Option RawEntry) → List StartupError
  | [] => []
  | reg :: regs =>
    registrationFaults u.name before reg ++
      standing u (before ++ (accepted? u (reg, .status Status.ok)).toList) regs

section Registrations

variable {u : DeclaredUnit} {before : List Entry} {reg : Option RawEntry}

theorem accepted?_ok (u : DeclaredUnit) (reg : Option RawEntry) :
    accepted? u (reg, .status Status.ok) = (checked? u.name reg).map (·.ownedBy u.handle) := by
  simp only [accepted?, ↓reduceIte, checked?]

theorem unit_of_checked? {unit : String} {e : Entry} (h : checked? unit reg = some e) :
    e.unit = unit := by
  obtain ⟨raw, rfl, hraw⟩ := Option.bind_eq_some_iff.1 h
  cases hcheck : raw.check unit with
  | error fault =>
    rw [hcheck] at hraw
    cases hraw
  | ok f =>
    rw [hcheck] at hraw
    cases hraw
    exact RawEntry.unit_of_check hcheck

/-- A registration is accepted if its entry passes the check and agrees with those before it. -/
theorem registrationFaults_eq_nil_iff {unit : String} (hb : before.Pairwise Entry.Agrees) :
    registrationFaults unit before reg = [] ↔
      ∃ e, checked? unit reg = some e ∧ (before ++ [e]).Pairwise Entry.Agrees := by
  unfold registrationFaults checked?
  cases reg with
  | none => simp
  | some raw =>
    cases hraw : raw.check unit with
    | error fault => simp [hraw, Except.toOption]
    | ok e =>
      have hunit : ∀ f ∈ [e], f.unit = unit := by simpa using RawEntry.unit_of_check hraw
      simpa [hraw, Except.toOption] using Registry.conflicts_eq_nil_iff hb hunit

theorem standing_eq_nil_iff {regs : List (Option RawEntry)}
    (hb : before.Pairwise Entry.Agrees) :
    standing u before regs = [] ↔ (∀ reg ∈ regs, (checked? u.name reg).isSome) ∧
      (before ++ (regs.filterMap (checked? u.name)).map (·.ownedBy u.handle)).Pairwise
        Entry.Agrees := by
  induction regs generalizing before with
  | nil => simpa [standing] using hb
  | cons reg regs ih =>
    rw [standing, List.append_eq_nil_iff, registrationFaults_eq_nil_iff hb, List.forall_mem_cons,
      accepted?_ok]
    cases hreg : checked? u.name reg with
    | none => simp
    | some e =>
      have hfirst : (before ++ [e]).Pairwise Entry.Agrees ↔
          (before ++ [e.ownedBy u.handle]).Pairwise Entry.Agrees :=
        Entry.pairwise_agrees_congr (by simp)
      have hcons : before ++ ((reg :: regs).filterMap (checked? u.name)).map
          (·.ownedBy u.handle) = before ++ [e.ownedBy u.handle] ++
          (regs.filterMap (checked? u.name)).map (·.ownedBy u.handle) := by
        simp [hreg]
      rw [hcons]
      simp only [Option.some.injEq, exists_eq_left', hfirst, Option.map_some, Option.toList_some,
        Option.isSome_some, true_and]
      constructor
      · rintro ⟨hagree, hrest⟩
        exact (ih hagree).1 hrest
      · rintro ⟨hall, hpairs⟩
        have hagree := (List.pairwise_append.1 hpairs).1
        exact ⟨hagree, (ih hagree).2 ⟨hall, hpairs⟩⟩

end Registrations

/-! ### Contributions -/

/-- What is added to some entries, and what stands against that: nothing if those who add are sound
and all entries agree. What is added are then the entries that are meant, whoever owns them. -/
structure Contributes (sound : Prop) (entries before : List Entry) (faults : List StartupError)
    (added : List Entry) : Prop where
  faultless : faults = [] ↔ sound ∧ (before ++ entries).Pairwise Entry.Agrees
  added : faults = [] → added.map Entry.bare = entries.map Entry.bare

namespace Contributes

variable {sound sound' : Prop} {before entries entries' added added' : List Entry}
  {faults faults' : List StartupError}

theorem of_unsound (hsound : ¬sound) (hfaults : faults ≠ []) :
    Contributes sound entries before faults added :=
  ⟨iff_of_false hfaults fun h => hsound h.1, fun h => absurd h hfaults⟩

theorem nil (hsound : sound) (hbefore : before.Pairwise Entry.Agrees) :
    Contributes sound [] before [] [] := ⟨by simp [hsound, hbefore], fun _ => rfl⟩

theorem of_iff (h : Contributes sound entries before faults added) (hsound : sound' ↔ sound) :
    Contributes sound' entries before faults added := by rwa [propext hsound]

theorem pairwise_added (h : Contributes sound entries before faults added) (hnil : faults = []) :
    (before ++ added).Pairwise Entry.Agrees := by
  refine (Entry.pairwise_agrees_congr ?_).1 (h.faultless.1 hnil).2
  rw [List.map_append, List.map_append, h.added hnil]

theorem append (h : Contributes sound entries before faults added)
    (h' : faults = [] → Contributes sound' entries' (before ++ added) faults' added') :
    Contributes (sound ∧ sound') (entries ++ entries') before (faults ++ faults')
      (added ++ added') := by
  have hcongr (hnil : faults = []) : (before ++ added ++ entries').Pairwise Entry.Agrees ↔
      (before ++ (entries ++ entries')).Pairwise Entry.Agrees := by
    refine Entry.pairwise_agrees_congr ?_
    simp only [List.map_append, h.added hnil, List.append_assoc]
  refine ⟨⟨fun hall => ?_, fun ⟨⟨hs, hs'⟩, hpairs⟩ => ?_⟩, fun hall => ?_⟩
  · obtain ⟨hnil, hnil'⟩ := List.append_eq_nil_iff.1 hall
    obtain ⟨hs', hpairs⟩ := (h' hnil).faultless.1 hnil'
    exact ⟨⟨(h.faultless.1 hnil).1, hs'⟩, (hcongr hnil).1 hpairs⟩
  · have hfirst : (before ++ entries).Pairwise Entry.Agrees := by
      rw [← List.append_assoc] at hpairs
      exact (List.pairwise_append.1 hpairs).1
    have hnil := h.faultless.2 ⟨hs, hfirst⟩
    rw [hnil, List.nil_append]
    exact (h' hnil).faultless.2 ⟨hs', (hcongr hnil).2 hpairs⟩
  · obtain ⟨hnil, hnil'⟩ := List.append_eq_nil_iff.1 hall
    rw [List.map_append, List.map_append, h.added hnil, (h' hnil).added hnil']

end Contributes

/-! ### Units in any order -/

namespace Registry

/-- What units register one after another, first in one phase and then in the next. -/
def inPhases {α : Type} (first second : α → List Entry) (units : List α) : List Entry :=
  units.flatMap first ++ units.flatMap second

section Phases

variable {α : Type} {first second : α → List Entry} {name : α → String} {units units' : List α}
  {method : Method}

theorem filter_flatMap_unit {entries : α → List Entry} (hn : (units.map name).Nodup)
    (hunit : ∀ a ∈ units, ∀ e ∈ entries a, e.unit = name a) {a : α} (ha : a ∈ units) :
    (units.flatMap entries).filter (·.unit = name a) = entries a := by
  induction units with
  | nil => cases ha
  | cons b units ih =>
    obtain ⟨hb, hunits⟩ := List.forall_mem_cons.1 hunit
    obtain ⟨hnot, hn⟩ := List.nodup_cons.1 hn
    rw [List.flatMap_cons, List.filter_append]
    rcases List.mem_cons.1 ha with rfl | ha
    · have hown : (entries a).filter (·.unit = name a) = entries a :=
        List.filter_eq_self.2 fun e he => by simpa using hb e he
      have hother : (units.flatMap entries).filter (·.unit = name a) = [] := by
        refine List.filter_eq_nil_iff.2 fun e he => ?_
        obtain ⟨c, hc, hec⟩ := List.mem_flatMap.1 he
        have hne : name c ≠ name a := fun h => hnot (h ▸ List.mem_map_of_mem hc)
        simpa [hunits c hc e hec] using hne
      rw [hown, hother, List.append_nil]
    · have hne : name b ≠ name a := fun h => hnot (h ▸ List.mem_map_of_mem ha)
      have hother : (entries b).filter (·.unit = name a) = [] :=
        List.filter_eq_nil_iff.2 fun e he => by simpa [hb e he] using hne
      rw [hother, List.nil_append, ih hn hunits ha]

theorem entryOf?_filter_unit {es : List Entry} {unit : String}
    (h : ∀ e ∈ es, e.method = method → e.unit = unit) :
    entryOf? method (es.filter (·.unit = unit)) = entryOf? method es := by
  unfold entryOf?
  rw [List.find?_filter]
  refine List.find?_congr fun e he => ?_
  by_cases hm : e.method = method
  · simp [hm, h e he hm]
  · simp [hm]

/-- Which entry a method has is no matter of the order of the units, if all entries agree. -/
theorem entryOf?_inPhases_perm (hperm : units.Perm units') (hn : (units.map name).Nodup)
    (hfirst : ∀ a ∈ units, ∀ e ∈ first a, e.unit = name a)
    (hsecond : ∀ a ∈ units, ∀ e ∈ second a, e.unit = name a)
    (hagree : (inPhases first second units).Pairwise Entry.Agrees) :
    entryOf? method (inPhases first second units) =
      entryOf? method (inPhases first second units') := by
  have hsame : (inPhases first second units).Perm (inPhases first second units') :=
    (hperm.flatMap_right first).append (hperm.flatMap_right second)
  cases hfound : entryOf? method (inPhases first second units) with
  | none =>
    refine (List.find?_eq_none.2 fun e he => ?_).symm
    exact List.find?_eq_none.1 hfound e (hsame.mem_iff.2 he)
  | some e =>
    have he := List.mem_of_find?_eq_some hfound
    obtain ⟨a, ha, hname⟩ : ∃ a ∈ units, e.unit = name a := by
      rcases List.mem_append.1 he with h | h
      · obtain ⟨a, ha, hea⟩ := List.mem_flatMap.1 h
        exact ⟨a, ha, hfirst a ha e hea⟩
      · obtain ⟨a, ha, hea⟩ := List.mem_flatMap.1 h
        exact ⟨a, ha, hsecond a ha e hea⟩
    -- All entries of the method are of this unit, and those are in one order.
    have honly : ∀ f ∈ inPhases first second units, f.method = method → f.unit = name a := by
      intro f hf hm
      have hagrees : e.Agrees f := hagree.forall_of_forall (fun g _ => g.agrees_refl) he hf
      obtain ⟨hunit, -⟩ := hagrees ((entryOf?_method hfound).trans hm.symm)
      exact hunit.symm.trans hname
    have hone (us : List α) (hus : us.Perm units) (hmethod : ∀ f ∈ inPhases first second us,
        f.method = method → f.unit = name a) :
        entryOf? method (inPhases first second us) = entryOf? method (first a ++ second a) := by
      have hnames := (hus.map name).nodup_iff.2 hn
      rw [← entryOf?_filter_unit hmethod, inPhases, List.filter_append,
        filter_flatMap_unit hnames (fun b hb => hfirst b (hus.mem_iff.1 hb)) (hus.mem_iff.2 ha),
        filter_flatMap_unit hnames (fun b hb => hsecond b (hus.mem_iff.1 hb)) (hus.mem_iff.2 ha)]
    rw [← hfound, hone units (.refl _) honly, hone units' hperm.symm fun f hf =>
      honly f (hsame.mem_iff.2 hf)]

end Phases

theorem entryOf?_map_bare (method : Method) (es : List Entry) :
    entryOf? method (es.map Entry.bare) = (entryOf? method es).map Entry.bare := List.find?_map ..

end Registry

end AccelHost
