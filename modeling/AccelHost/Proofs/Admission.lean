import AccelHost.Proofs.Growth
import Mathlib.Data.List.Nodup

/-!
Which entries a registry admits. A method belongs to whoever registers it first: the same unit may
register it again with the same target, and that changes nothing. A registry so has, of all that was
registered, the first entry of each method.
-/
namespace AccelHost

def Entry.ownedBy (x : UnitHandle) (e : Entry) : Entry := { e with owner := some x }

namespace Registry

/-- The unit that a method belongs to, if its entry may not be registered after some others. -/
def conflict? (unit : String) (before : List Entry) (e : Entry) : Option String :=
  match entryOf? e.method before with
  | none => none
  | some other => if other.unit = unit ∧ other.sameTarget e = true then none else some other.unit

/-- What stands against a batch of entries after some others: each may conflict with these, and with
those before it in the batch. -/
def conflicts (unit : String) (before : List Entry) : List Entry → List StartupError
  | [] => []
  | e :: es =>
    ((conflict? unit before e).map fun owner => .duplicateEntry e.method unit owner).toList ++
      conflicts unit (before ++ [e]) es

/-- A registry that has the first entry of each method among some entries, and nothing else. -/
structure Collects (r : Registry) (es : List Entry) : Prop where
  first : ∀ m, r.find? m = entryOf? m es
  distinct : (r.entries.map (·.method)).Nodup

theorem collects_empty (us : List DeclaredUnit) : Collects { units := us } [] :=
  ⟨fun _ => rfl, List.nodup_nil⟩

/-! ### First entries -/

theorem entryOf?_append_eq (m : Method) (es fs : List Entry) :
    entryOf? m (es ++ fs) = (entryOf? m es).or (entryOf? m fs) := List.find?_append

theorem entryOf?_map_ownedBy (m : Method) (x : UnitHandle) (es : List Entry) :
    entryOf? m (es.map (·.ownedBy x)) = (entryOf? m es).map (·.ownedBy x) := List.find?_map ..

theorem method_not_mem_of_entryOf? {m : Method} {es : List Entry} (h : entryOf? m es = none) :
    m ∉ es.map (·.method) := by
  intro hm
  obtain ⟨e, he, hmethod⟩ := List.mem_map.1 hm
  have hne := List.find?_eq_none.1 h e he
  exact hne (by simpa using hmethod)

theorem entryOf?_of_mem {es : List Entry} {e : Entry} (hn : (es.map (·.method)).Nodup)
    (he : e ∈ es) : entryOf? e.method es = some e := by
  cases hfound : entryOf? e.method es with
  | none => exact absurd (List.mem_map_of_mem he) (method_not_mem_of_entryOf? hfound)
  | some f =>
    rw [List.inj_on_of_nodup_map hn (List.mem_of_find?_eq_some hfound) he (entryOf?_method hfound)]

theorem entryOf?_append_repeated {m : Method} {es : List Entry} {e : Entry}
    (h : e.method = m → entryOf? m es ≠ none) : entryOf? m (es ++ [e]) = entryOf? m es := by
  rw [entryOf?_append_eq]
  by_cases he : e.method = m
  · obtain ⟨other, hother⟩ := Option.ne_none_iff_exists'.1 (h he)
    rw [hother, Option.some_or]
  · have hskip : entryOf? m [e] = none := by simp [entryOf?, he]
    rw [hskip, Option.or_none]

theorem conflict?_congr {unit : String} {before before' : List Entry} {e : Entry}
    (h : entryOf? e.method before = entryOf? e.method before') :
    conflict? unit before e = conflict? unit before' e := by
  simp only [conflict?, h]

theorem conflicts_congr {unit : String} {before before' : List Entry}
    (h : ∀ m, entryOf? m before = entryOf? m before') (es : List Entry) :
    conflicts unit before es = conflicts unit before' es := by
  induction es generalizing before before' with
  | nil => rfl
  | cons e es ih =>
    have hrest : ∀ m, entryOf? m (before ++ [e]) = entryOf? m (before' ++ [e]) := fun m => by
      rw [entryOf?_append_eq, entryOf?_append_eq, h]
    rw [conflicts, conflicts, conflict?_congr (h e.method), ih hrest]

/-! ### Batches -/

variable {r : Registry} {unit : String}

/-- How an entry stands is settled by the first entry of its method. -/
theorem admission_eq {e : Entry} {fresh : List Entry} (hunit : ∀ f ∈ fresh, f.unit = unit) :
    r.admission unit fresh e =
      match conflict? unit (r.entries ++ fresh) e with
      | some owner => .taken owner
      | none => if entryOf? e.method (r.entries ++ fresh) = none then .fresh else .repeated := by
  unfold admission conflict? find?
  rw [entryOf?_append_eq]
  cases hold : entryOf? e.method r.entries with
  | some other =>
    by_cases hsame : other.unit = unit ∧ other.sameTarget e = true
    · simp [hsame]
    · simp only [Option.some_or, if_neg hsame]
      rw [if_neg (by simpa using hsame)]
  | none =>
    cases hnew : entryOf? e.method fresh with
    | none => simp
    | some other =>
      have hother : other.unit = unit := hunit other (List.mem_of_find?_eq_some hnew)
      by_cases hsame : other.sameTarget e = true <;> simp [hother, hsame]

/-- Entries of a unit that are new to a registry: of what was done of a batch, the first entry of
each method that the registry does not have. -/
structure FreshOf (r : Registry) (unit : String) (done fresh : List Entry) : Prop where
  unit : ∀ e ∈ fresh, e.unit = unit
  first : ∀ m, r.find? m = none → entryOf? m fresh = entryOf? m done
  distinct : ((r.entries ++ fresh).map (·.method)).Nodup

namespace FreshOf

variable {e : Entry} {done fresh : List Entry}

theorem entryOf?_eq (h : r.FreshOf unit done fresh) (m : Method) :
    entryOf? m (r.entries ++ fresh) = entryOf? m (r.entries ++ done) := by
  rw [entryOf?_append_eq, entryOf?_append_eq]
  cases hold : entryOf? m r.entries with
  | some other => rfl
  | none => exact h.first m hold

theorem admission_eq (h : r.FreshOf unit done fresh) (e : Entry) :
    r.admission unit fresh e =
      match conflict? unit (r.entries ++ done) e with
      | some owner => .taken owner
      | none => if entryOf? e.method (r.entries ++ done) = none then .fresh else .repeated := by
  rw [← conflict?_congr (h.entryOf?_eq e.method), ← h.entryOf?_eq]
  exact Registry.admission_eq h.unit

theorem added (h : r.FreshOf unit done fresh) (he : e.unit = unit)
    (hnone : entryOf? e.method (r.entries ++ done) = none) :
    r.FreshOf unit (done ++ [e]) (fresh ++ [e]) where
  unit := List.forall_mem_append.2 ⟨h.unit, List.forall_mem_singleton.2 he⟩
  first m hm := by rw [entryOf?_append_eq, entryOf?_append_eq, h.first m hm]
  distinct := by
    rw [← List.append_assoc, List.map_append, List.map_singleton, ← List.concat_eq_append]
    exact h.distinct.concat (method_not_mem_of_entryOf? ((h.entryOf?_eq e.method).trans hnone))

theorem repeated (h : r.FreshOf unit done fresh)
    (hsome : entryOf? e.method (r.entries ++ done) ≠ none) :
    r.FreshOf unit (done ++ [e]) fresh where
  unit := h.unit
  first m hm := by
    refine (h.first m hm).trans (entryOf?_append_repeated fun he => ?_).symm
    -- The registry does not have the method, so it is among those done.
    subst he
    have hold : entryOf? e.method r.entries = none := hm
    rwa [entryOf?_append_eq, hold, Option.none_or] at hsome
  distinct := h.distinct

theorem mem (h : r.FreshOf unit done fresh) (he : e ∈ fresh) : e ∈ done := by
  have hdistinct := h.distinct
  rw [List.map_append] at hdistinct
  have hnone : r.find? e.method = none := by
    refine List.find?_eq_none.2 fun f hf => ?_
    have hne := List.nodup_append.1 hdistinct |>.2.2 _ (List.mem_map_of_mem hf) _
      (List.mem_map_of_mem he)
    simpa using hne
  have hfound := entryOf?_of_mem hdistinct.of_append_right he
  rw [h.first _ hnone] at hfound
  exact List.mem_of_find?_eq_some hfound

end FreshOf

theorem freshEntries_end {fresh done batch : List Entry} (h : r.FreshOf unit done fresh)
    (hunit : ∀ e ∈ batch, e.unit = unit) :
    (∀ err, r.freshEntries unit fresh batch = .error err →
      (conflicts unit (r.entries ++ done) batch).head? = some err) ∧
    ∀ fresh', r.freshEntries unit fresh batch = .ok fresh' →
      conflicts unit (r.entries ++ done) batch = [] ∧ r.FreshOf unit (done ++ batch) fresh' := by
  induction batch generalizing fresh done with
  | nil =>
    refine ⟨fun err h => (by cases h), fun fresh' hfresh => ?_⟩
    cases hfresh
    exact ⟨rfl, by rwa [List.append_nil]⟩
  | cons e es ih =>
    obtain ⟨he, hes⟩ := List.forall_mem_cons.1 hunit
    unfold freshEntries conflicts
    rw [h.admission_eq e, List.append_assoc, List.append_cons done e es]
    cases conflict? unit (r.entries ++ done) e with
    | some owner =>
      refine ⟨fun err h => ?_, fun _ h => (by cases h)⟩
      cases h
      rfl
    | none =>
      simp only [Option.map_none, Option.toList_none, List.nil_append]
      by_cases hnone : entryOf? e.method (r.entries ++ done) = none
      · simp only [if_pos hnone]
        exact ih (h.added he hnone) hes
      · simp only [if_neg hnone]
        exact ih (h.repeated hnone) hes

/-- A batch of a unit is registered as a whole if nothing stands against it; else the first that
does is told. -/
theorem registerEntries_end {x : UnitHandle} {u : DeclaredUnit} {es batch : List Entry}
    (hu : r.unit? x = some u) (hunit : ∀ e ∈ batch, e.unit = u.name) (hr : r.Collects es) :
    (∀ err, r.registerEntries x batch = .error err →
      (conflicts u.name es batch).head? = some err) ∧
    ∀ r', r.registerEntries x batch = .ok r' →
      conflicts u.name es batch = [] ∧ r'.Collects (es ++ batch.map (·.ownedBy x)) := by
  have hstart : r.FreshOf u.name [] [] :=
    ⟨List.forall_mem_nil _, fun _ _ => rfl, by simpa using hr.distinct⟩
  obtain ⟨herror, hok⟩ := freshEntries_end hstart hunit
  rw [List.append_nil, conflicts_congr hr.first] at herror hok
  unfold registerEntries
  rw [hu]
  dsimp only
  cases hfresh : r.freshEntries u.name [] batch with
  | error err =>
    refine ⟨fun _ h => ?_, fun _ h => (by cases h)⟩
    cases h
    exact herror err hfresh
  | ok fresh =>
    obtain ⟨hnone, hnew⟩ := hok fresh hfresh
    refine ⟨fun _ h => (by cases h), fun r' h => ?_⟩
    cases h
    refine ⟨hnone, fun m => ?_, ?_⟩
    · change entryOf? m (r.entries ++ fresh.map (·.ownedBy x)) = _
      rw [entryOf?_append_eq, entryOf?_append_eq, ← hr.first m]
      cases hold : r.find? m with
      | some e =>
        have hentry : entryOf? m r.entries = some e := hold
        rw [hentry, Option.some_or, Option.some_or]
      | none =>
        have hentry : entryOf? m r.entries = none := hold
        rw [hentry, Option.none_or, Option.none_or, entryOf?_map_ownedBy, entryOf?_map_ownedBy,
          hnew.first m hold, List.nil_append]
    · change ((r.entries ++ fresh.map (·.ownedBy x)).map (·.method)).Nodup
      have hmethods : (fresh.map (·.ownedBy x)).map (·.method) = fresh.map (·.method) := by
        rw [List.map_map]
        rfl
      rw [List.map_append, hmethods, ← List.map_append]
      exact hnew.distinct

theorem Collects.modifyUnit {x : UnitHandle} {f : DeclaredUnit → DeclaredUnit} {es : List Entry}
    (hr : r.Collects es) : (r.modifyUnit x f).Collects es := ⟨hr.first, hr.distinct⟩

end Registry

end AccelHost
