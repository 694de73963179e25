import AccelHost.Proofs.Foreign

/-!
Calls of replaced methods as moves. A call holds the guards of its arguments while the native
function runs; what is compiled is kept where it belongs.
-/
namespace AccelHost

open Holding

namespace Keyed

theorem set_eq_self {κ ν : Type} [DecidableEq κ] {k : κ} {v : ν} {t : Keyed κ ν}
    (h : t.get? k = some v) : t.set k v = t := by
  induction t with
  | nil => cases h
  | cons e rest ih =>
    obtain ⟨a, w⟩ := e
    by_cases ha : a = k
    · simp only [get?, ha, ↓reduceIte, Option.some.injEq] at h
      simp [set, ha, h]
    · simp only [get?, ha, ↓reduceIte] at h
      simp [set, ha, ih h]

end Keyed

namespace Host

variable {h : Host}

theorem modifyReplacements_congr {f g : Replacements → Replacements}
    (hfg : ∀ s, h.replacements? = some s → f s = g s) :
    h.modifyReplacements f = h.modifyReplacements g := by
  unfold replacements? at hfg
  unfold modifyReplacements
  cases hr : h.runtime with
  | some r => simp only [hr] at hfg ⊢; rw [hfg _ rfl]
  | none =>
    simp only [hr] at hfg ⊢
    cases hb : h.bareReplacements with
    | none => rfl
    | some s => simp only [Option.map_some]; rw [hfg s hb]

theorem modifyReplacements_id : h.modifyReplacements id = h := by
  unfold modifyReplacements
  cases hr : h.runtime with
  | some r => simp only [id]; rw [← hr]
  | none =>
    rw [Option.map_id_fun]
    exact congrArg (fun r => { h with runtime := r }) hr.symm

/-- What `compile` does to a host once a plan is lowered. -/
def keep (h : Host) (rs : Replacements) (method : Method) (plan : CallPlan) : Host :=
  h.modifyReplacements fun s =>
    if s.id = rs.id then
      { s with compiled := s.compiled.set method ⟨plan, .cached rs.id method⟩ }
    else s

@[simp] theorem provided_keep (h : Host) (rs : Replacements) (method : Method) (plan : CallPlan) :
    (h.keep rs method plan).provided = h.provided := by
  unfold keep modifyReplacements
  cases h.runtime <;> rfl

@[simp] theorem serial_keep (h : Host) (rs : Replacements) (method : Method) (plan : CallPlan) :
    (h.keep rs method plan).serial = h.serial := by
  unfold keep modifyReplacements
  cases h.runtime <;> rfl

/-- A plan that may be kept with some replacements: if these are in use, they are of a runtime, and
the plan is of their entry. -/
def Suits (h : Host) (rs : Replacements) (method : Method) (plan : CallPlan) : Prop :=
  ∀ s, h.replacements? = some s → s.id = rs.id → h.runtime.isSome ∧
    ∃ e func, s.published.find? method = some e ∧ h.native? e = some func ∧ plan = .ofEntry e func

theorem keep_of_bare {rs : Replacements} {method : Method} {plan : CallPlan}
    (hsuits : h.Suits rs method plan) (hr : h.runtime = none) : h.keep rs method plan = h := by
  unfold keep
  rw [modifyReplacements_congr (g := id), modifyReplacements_id]
  intro s hs
  refine if_neg fun hid => ?_
  have hsome := (hsuits s hs hid).1
  rw [hr] at hsome
  cases hsome

theorem mem_publications {s : Replacements} (hs : h.replacements? = some s) :
    ⟨h.runtime.isSome, s.id, s.published⟩ ∈ h.publications := by
  unfold replacements? at hs
  unfold publications
  cases hr : h.runtime with
  | some r => rw [hr] at hs; cases hs; simp
  | none => rw [hr] at hs; simp [show h.bareReplacements = some s from hs]

theorem Orderly.eq_of_id {next : UnitHandle} {p q : Publication} (ho : h.Orderly next)
    (hp : p ∈ h.publications) (hq : q ∈ h.publications) (hid : p.id = q.id) : p = q := by
  simp only [publications, List.mem_append, Option.mem_toList, Option.map_eq_some_iff] at hp hq
  rcases hp with ⟨r, hr, rfl⟩ | ⟨s, hs, rfl⟩ <;> rcases hq with ⟨r', hr', rfl⟩ | ⟨s', hs', rfl⟩
  · rw [hr] at hr'
    cases hr'
    rfl
  · exact absurd hid (ho.apart r s' hr hs')
  · exact absurd hid.symm (ho.apart r' s hr' hs)
  · rw [hs] at hs'
    cases hs'
    rfl

theorem Orderly.id_lt {next : UnitHandle} {p : Publication} (ho : h.Orderly next)
    (hp : p ∈ h.publications) : p.id < h.serial := by
  simp only [publications, List.mem_append, Option.mem_toList, Option.map_eq_some_iff] at hp
  rcases hp with ⟨r, hr, rfl⟩ | ⟨s, hs, rfl⟩
  · exact (ho.runtime r hr).serial
  · exact (ho.exposed s hs).serial

end Host

/-- Replacements that are still in use publish what they did, and for the same kind of registry. -/
theorem Around.published_eq {m m' : Machine} {s s' : Replacements} {next : UnitHandle}
    (ha : Around m m') (ho : m.host.Orderly next) (hs : m.host.replacements? = some s)
    (hs' : m'.host.replacements? = some s') (hid : s'.id = s.id) :
    s'.published = s.published ∧ m'.host.runtime.isSome = m.host.runtime.isSome := by
  have hp := Host.mem_publications hs
  rcases ha.published _ (Host.mem_publications hs') with hp' | hlt
  · have := ho.eq_of_id hp' hp hid
    simp only [Publication.mk.injEq] at this
    exact ⟨this.2.2, this.1⟩
  · have := ho.id_lt hp
    simp only [hid] at hlt this
    omega

namespace Dispatch

variable {n : Nested} {G : List UnitHandle} {X : List Holding} {m : Machine}

theorem askProvider_carries (hn : n.Lawful) (e : Entry) (provider : CodeRef)
    (data : Option CodeRef) : Carries G X m (askProvider n e provider data) fun _ => X := by
  unfold askProvider
  split
  · exact .pure
  · refine .trace (by simp [TraceEvent.unit?]) (.host ?_)
    split
    · exact hn.runCode _
    · exact .pure

theorem nativeFunc_carries (hn : n.Lawful) (e : Entry) :
    Carries G X m (nativeFunc n e) fun _ => X := by
  unfold nativeFunc
  split
  · exact .pure
  · refine .host ?_
    split
    · exact .pure
    · refine .bind (.holding (askProvider_carries hn e _ _)) fun _ _ => .host ?_
      refine .modifyHost ?_ .pure
      cases hp : ((Work.holding _ (askProvider n e _ _)).after m).host.provided.get? e.id with
      | none => exact .provide hp
      | some first =>
        rw [Option.getD_some, Keyed.set_eq_self hp]
        exact .refl X _

theorem native?_of_nativeFunc {e : Entry} {func : CodeRef}
    (hf : (nativeFunc n e).result m = some func) :
    ((nativeFunc n e).after m).host.native? e = some func := by
  unfold nativeFunc Host.native? at *
  cases ht : e.target with
  | direct code =>
    simp only [ht] at hf ⊢
    exact hf
  | provided provider data =>
    simp only [ht, Work.result_bind, Work.after_bind, Work.result_host, Work.after_host] at hf ⊢
    cases hp : m.host.provided.get? e.id with
    | some answer =>
      simp only [hp, Work.result_pure, Work.after_pure] at hf ⊢
      rw [hf]
      rfl
    | none =>
      simp only [hp, Work.result_bind, Work.after_bind, Work.result_host, Work.after_host,
        Work.after_modifyHost, Work.result_pure, Work.after_pure] at hf ⊢
      simp only [Machine.withHost, Keyed.get?_set_self, hf]
      rfl

theorem lower_carries (hn : n.Lawful) (e : Entry) : Carries G X m (lower n e) fun _ => X := by
  unfold lower
  refine .host ?_
  split
  · exact .pure
  · refine .bind (nativeFunc_carries hn e) fun _ _ => ?_
    split <;> exact .pure

theorem eq_ofEntry_of_lower {e : Entry} {p : CallPlan} (hp : (lower n e).result m = .ok p) :
    m.host.isLoaded e = true ∧
      ∃ func, p = .ofEntry e func ∧ ((lower n e).after m).host.native? e = some func := by
  unfold lower at hp ⊢
  simp only [Work.result_bind, Work.after_bind, Work.result_host, Work.after_host] at hp ⊢
  by_cases hl : m.host.isLoaded e = true
  · simp only [hl, Bool.not_true, Bool.false_eq_true, if_false, Work.result_bind,
      Work.after_bind] at hp ⊢
    cases hf : (nativeFunc n e).result m with
    | none => simp [hf] at hp
    | some func =>
      simp only [hf, Work.result_pure, Except.ok.injEq] at hp
      exact ⟨trivial, func, hp.symm, native?_of_nativeFunc hf⟩
  · simp [hl] at hp

theorem runNative_carries (hn : n.Lawful) (func : CodeRef) (args : List NativeArg) :
    Carries G X m (runNative n func args) fun _ => X := by
  unfold runNative
  refine .trace (by simp [TraceEvent.unit?]) (.host ?_)
  split
  · exact hn.runCode _
  · exact .pure

/-- A plan that was lowered for replacements in use suits them, as long as they are in use. -/
theorem suits_of_lower (hn : n.Lawful) {rs : Replacements} {method : Method} {e : Entry}
    {p : CallPlan} (hrs : m.host.replacements? = some rs)
    (he : rs.published.find? method = some e) (hp : (lower n e).result m = .ok p)
    (ho : m.Orderly G) : ((lower n e).after m).host.Suits rs method p := by
  intro s hs hid
  obtain ⟨hl, func, rfl, hf⟩ := eq_ofEntry_of_lower hp
  have hm : Moves [] m [] ((lower n e).after m) := lower_carries hn e ho
  obtain ⟨hpub, hkind⟩ := hm.around.published_eq ho.host hrs hs hid
  refine ⟨?_, e, func, by rw [hpub, he], hf, rfl⟩
  rw [hkind]
  -- Only a runtime has entries that are loaded.
  cases hr : m.host.runtime with
  | some r => rfl
  | none =>
    have hb : m.host.bareReplacements = some rs := by simpa [Host.replacements?, hr] using hrs
    rw [ho.host.not_isLoaded hb (Registry.mem_of_find? he)] at hl
    cases hl

theorem keep_moves {rs : Replacements} {method : Method} {p : CallPlan} (ho : m.Orderly G)
    (hsuits : m.host.Suits rs method p) : Moves X m X (m.withHost (m.host.keep rs method p)) := by
  unfold Host.keep
  cases hs : m.host.replacements? with
  | none =>
    rw [Host.modifyReplacements_congr (g := id) (by simp [hs]), Host.modifyReplacements_id]
    exact .refl X m
  | some s =>
    by_cases hid : s.id = rs.id
    · obtain ⟨hr, e, func, he, hf, rfl⟩ := hsuits s hs hid
      rw [Host.modifyReplacements_congr (g := fun s =>
        { s with compiled := s.compiled.set method ⟨.ofEntry e func, .cached s.id method⟩ })
        (by simp [hs, hid])]
      refine .cache hs he ?_ hf
      obtain ⟨r, hr⟩ := Option.isSome_iff_exists.1 hr
      have hrs : r.replacements = s := by simpa [Host.replacements?, hr] using hs
      exact ho.host.isLoaded_of_mem hr (hrs ▸ Registry.mem_of_find? he)
    · rw [Host.modifyReplacements_congr (g := id) (by simp [hs, hid]),
        Host.modifyReplacements_id]
      exact .refl X m

theorem lowerKept_carries (hn : n.Lawful) {rs : Replacements} {method : Method} {e : Entry}
    (hrs : m.host.replacements? = some rs) (he : rs.published.find? method = some e) :
    Carries G X m (lowerKept n rs method e) fun _ => X := by
  refine .bind (lower_carries hn e) fun ho hm => ?_
  split
  · exact .pure
  · rename_i plan hp
    have hsuits := suits_of_lower hn hrs he hp ho
    exact .modifyHost (keep_moves (hm.orderly ho).1 hsuits) .pure

theorem compile_carries (hn : n.Lawful) {rs : Replacements} (method : Method)
    (hrs : m.host.replacements? = some rs) : Carries G X m (compile n rs method) fun _ => X := by
  refine .bind (.await _) fun _ _ => ?_
  split
  · exact .pure
  · split
    · exact .pure
    · rename_i e he
      exact .holding (lowerKept_carries hn hrs he)

theorem compiledCount_carries (rs : Replacements) :
    Carries G X m (compiledCount rs) fun _ => X := .bind (.await _) fun _ _ => .pure

end Dispatch

end AccelHost
