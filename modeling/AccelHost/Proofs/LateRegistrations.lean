import AccelHost.Proofs.HookEnds
import AccelHost.Proofs.Publication
import AccelHost.Proofs.HookOrder
import AccelHost.Samples.Math

/-!
Registrations after publication. The hooks that a shutdown calls have sessions as all hooks have,
and these register in the registry of the runtime. What was published stays as it is, so that the
two tables are the same for as long as the late registrations are refused.
-/
namespace AccelHost

open Holding

theorem acceptedEntries_of_refused {u : DeclaredUnit}
    {calls : List (Option RawEntry × CallbackReply)}
    (h : ∀ call ∈ calls, call.2 = .status Status.error) : acceptedEntries u calls = [] := by
  apply List.filterMap_eq_nil_iff.2
  rintro ⟨entry, reply⟩ hcall
  have hreply : reply = .status Status.error := h _ hcall
  rw [hreply]
  exact accepted?_of_error u entry

/-- A unit is refused throughout if something stands against each of its registrations from the
beginning. -/
theorem Judged.refused_iff {u : DeclaredUnit} {es : List Entry}
    {calls : List (Option RawEntry × CallbackReply)} (h : Judged u es calls) :
    (∀ call ∈ calls, call.2 = .status Status.error) ↔
      ∀ call ∈ calls, registrationFaults u.name es call.1 ≠ [] := by
  induction h with
  | nil => exact iff_of_true (List.forall_mem_nil _) (List.forall_mem_nil _)
  | accepted hfaults _ _ =>
    rw [List.forall_mem_cons, List.forall_mem_cons]
    apply iff_of_false
    · exact fun hall => Status.error_ne_ok hall.1.symm
    · exact fun hall => hall.1 hfaults
  | rejected hfaults _ ih =>
    rw [List.forall_mem_cons, List.forall_mem_cons, ih, hfaults]
    exact and_congr_left fun _ => iff_of_true rfl (List.cons_ne_nil _ _)

namespace Registry

variable {r r' : Registry} {es : List Entry} {k : Method}

theorem mem_methods_iff_entryOf? : k ∈ es.map (·.method) ↔ entryOf? k es ≠ none := by
  constructor
  · exact fun hk hnone => method_not_mem_of_entryOf? hnone hk
  · intro hsome
    obtain ⟨e, he⟩ := Option.ne_none_iff_exists'.1 hsome
    rw [← entryOf?_method he]
    exact List.mem_map_of_mem (List.mem_of_find?_eq_some he)

theorem Collects.mem_methods_iff (h : r.Collects es) :
    k ∈ r.entries.map (·.method) ↔ k ∈ es.map (·.method) := by
  rw [mem_methods_iff_entryOf?, mem_methods_iff_entryOf?, ← h.first k]
  rfl

theorem Collects.eq_of_prefix (h : r'.Collects es) (hkept : r.entries <+: r'.entries)
    (hold : ∀ e ∈ es, e.method ∈ r.entries.map (·.method)) : r'.entries = r.entries := by
  obtain ⟨new, hnew⟩ := hkept
  have hdistinct := h.distinct
  rw [← hnew, List.map_append] at hdistinct
  cases new with
  | nil => rw [← hnew, List.append_nil]
  | cons e new =>
    have hmem : e.method ∈ r'.entries.map (·.method) := by
      rw [← hnew]
      exact List.mem_map_of_mem (List.mem_append_right _ (List.mem_cons_self ..))
    obtain ⟨f, hf, hmethod⟩ := List.mem_map.1 (h.mem_methods_iff.1 hmem)
    have hfirst : e.method ∈ r.entries.map (·.method) := hmethod ▸ hold f hf
    exact absurd rfl ((List.nodup_append.1 hdistinct).2.2 _ hfirst _ (List.mem_cons_self ..))

theorem Sound.isOwned (h : r.Sound) : r.Owned := by
  intro e he
  obtain ⟨u, hu, howner, -⟩ := h.owned e he
  exact ⟨u.handle, List.mem_map_of_mem hu, howner⟩

end Registry

namespace Startup

/-! ### Hook calls in turn -/

/-- The entries that some hook calls have registered, in order. -/
def acceptedBy (ends : List (DeclaredUnit × HookEnd)) : List Entry :=
  ends.flatMap fun (u, e) => acceptedEntries u e.calls

/-- Hook calls that are judged in turn: each by what there was before it. -/
inductive InTurn : List Entry → List (DeclaredUnit × HookEnd) → Prop where
  | nil {es : List Entry} : InTurn es []
  | cons {es : List Entry} {u : DeclaredUnit} {e : HookEnd}
      {ends : List (DeclaredUnit × HookEnd)} : Judged u es e.calls →
      InTurn (es ++ acceptedEntries u e.calls) ends → InTurn es ((u, e) :: ends)

namespace InTurn

variable {es : List Entry} {u : DeclaredUnit} {e : HookEnd}
  {ends ends' before behind : List (DeclaredUnit × HookEnd)}

theorem append (h : InTurn es ends) (h' : InTurn (es ++ acceptedBy ends) ends') :
    InTurn es (ends ++ ends') := by
  induction h with
  | @nil es =>
    have hnone : es ++ acceptedBy [] = es := List.append_nil es
    rwa [hnone] at h'
  | cons hhead _ ih =>
    apply InTurn.cons hhead
    apply ih
    rw [List.append_assoc]
    exact h'

theorem judged (h : InTurn es (before ++ (u, e) :: behind)) :
    Judged u (es ++ acceptedBy before) e.calls := by
  induction before generalizing es with
  | nil =>
    have hnone : es ++ acceptedBy [] = es := List.append_nil es
    rw [hnone]
    cases h with
    | cons hhead _ => exact hhead
  | cons p before ih =>
    cases h with
    | cons _ hrest =>
      have hall := ih hrest
      rw [List.append_assoc] at hall
      exact hall

theorem refused_iff (h : InTurn es ends) :
    (∀ p ∈ ends, ∀ call ∈ p.2.calls, call.2 = .status Status.error) ↔
      ∀ p ∈ ends, ∀ call ∈ p.2.calls, registrationFaults p.1.name es call.1 ≠ [] := by
  induction h with
  | nil => exact iff_of_true (List.forall_mem_nil _) (List.forall_mem_nil _)
  | @cons es u e ends hhead _ ih =>
    rw [List.forall_mem_cons, List.forall_mem_cons, hhead.refused_iff]
    apply and_congr_right
    intro hfaults
    -- The hook before these has entered nothing.
    rw [acceptedEntries_of_refused (hhead.refused_iff.2 hfaults), List.append_nil] at ih
    exact ih

end InTurn

theorem acceptedBy_of_refused {ends : List (DeclaredUnit × HookEnd)}
    (h : ∀ p ∈ ends, ∀ call ∈ p.2.calls, call.2 = .status Status.error) : acceptedBy ends = [] :=
  List.flatMap_eq_nil_iff.2 fun p hp => acceptedEntries_of_refused (h p hp)

/-! ### Finalizing -/

/-- How the `finalize` hook of a unit ends, if the unit is active and has one. -/
def finalizeEnd? (n : Nested) (r : Registry) (x : UnitHandle) (m : Machine) :
    Option (DeclaredUnit × HookEnd) :=
  ((r.unit? x).filter (·.isActive)).bind fun u =>
    ((m.host.modules.get? x).bind (·.finalize)).map fun hook =>
      (u, (callHook n .finalize hook r x).result m)

/-- How the hooks end that are called while some units are finalized. -/
def finalizeEnds (n : Nested) : Registry × ShutdownReport → List UnitHandle → Machine →
    List (DeclaredUnit × HookEnd)
  | _, [], _ => []
  | (r, report), x :: xs, m =>
    (finalizeEnd? n r x m).toList ++
      finalizeEnds n ((finalizeUnit n r report x).result m) xs ((finalizeUnit n r report x).after m)

variable {n : Nested} {X : List Holding} {G : List UnitHandle} {us vs : List DeclaredUnit}
  {σ : UnitHandle → UnitState} {r : Registry} {m m' : Machine} {rt : Runtime} {es : List Entry}
  {u v : DeclaredUnit} {x : UnitHandle}

theorem handle_of_unit? (h : r.unit? x = some u) : u.handle = x := by
  simpa using List.find?_some h

/-- What has come of a registry, after some entries, by some hook calls. -/
structure Comes (es : List Entry) (r : Registry) (ends : List (DeclaredUnit × HookEnd))
    (r' : Registry) : Prop where
  inTurn : InTurn es ends
  collects : r'.Collects (es ++ acceptedBy ends)
  sound : r'.Sound
  kept : r.entries <+: r'.entries

namespace Comes

variable {ends ends' : List (DeclaredUnit × HookEnd)} {r₁ r₂ : Registry}

theorem refl (hc : r.Collects es) (hs : r.Sound) : Comes es r [] r where
  inTurn := .nil
  collects := by
    have hnone : es ++ acceptedBy [] = es := List.append_nil es
    rwa [hnone]
  sound := hs
  kept := List.prefix_refl _

theorem trans (h : Comes es r ends r₁) (h' : Comes (es ++ acceptedBy ends) r₁ ends' r₂) :
    Comes es r (ends ++ ends') r₂ where
  inTurn := h.inTurn.append h'.inTurn
  collects := by
    have hall : acceptedBy (ends ++ ends') = acceptedBy ends ++ acceptedBy ends' :=
      List.flatMap_append
    rw [hall, ← List.append_assoc]
    exact h'.collects
  sound := h'.sound
  kept := h.kept.trans h'.kept

theorem setState (h : Comes es r ends r₁) (x : UnitHandle) (next : UnitState) :
    Comes es r ends (r₁.modifyUnit x fun u => { u with state := next }) where
  inTurn := h.inTurn
  collects := h.collects.modifyUnit
  sound := h.sound.setState x next
  kept := h.kept

/-- Of what was asked for, only methods that are new make a difference. -/
theorem entries_eq_iff (h : Comes r.entries r ends r₁) :
    r₁.entries = r.entries ↔ ∀ e ∈ acceptedBy ends, e.method ∈ r.entries.map (·.method) := by
  constructor
  · intro hsame e he
    rw [← hsame, h.collects.mem_methods_iff]
    exact List.mem_map_of_mem (List.mem_append_right _ he)
  · intro hall
    apply h.collects.eq_of_prefix h.kept
    exact List.forall_mem_append.2 ⟨fun e he => List.mem_map_of_mem he, hall⟩

end Comes

theorem callHook_comes (hn : n.Lawful) (ho : m.Orderly G) (hc : r.Collects es) (hs : r.Sound)
    (hunit : r.unit? u.handle = some u) (hook : UnitHandle → Behaviour Status) :
    let e := (callHook n .finalize hook r u.handle).result m
    Comes es r [(u, e)] e.session.registry := by
  intro e
  have hall : acceptedBy [(u, e)] = acceptedEntries u e.calls := List.append_nil _
  obtain ⟨new, hnew, -⟩ :=
    (session_callHook (x := u.handle) hn ho .finalize hook r).registry.entries
  refine ⟨.cons (callHook_judged hn ho .finalize hook ⟨u, hunit, rfl⟩ hc) .nil, ?_,
    callHook_sound hn ho .finalize hook hs u.handle, ⟨new, hnew.symm⟩⟩
  rw [hall]
  exact (callHook_registrations hn ho .finalize hook ⟨u, hunit, rfl⟩ hc .initFailed).1

theorem finalizeUnit_comes (hn : n.Lawful) (ho : m.Orderly G) (hc : r.Collects es) (hs : r.Sound)
    (x : UnitHandle) (report : ShutdownReport) :
    Comes es r (finalizeEnd? n r x m).toList ((finalizeUnit n r report x).result m).1 := by
  unfold finalizeUnit finalizeEnd?
  cases hunit : r.unit? x with
  | none => exact .refl hc hs
  | some u =>
    obtain rfl := handle_of_unit? hunit
    cases hactive : u.isActive with
    | false =>
      simp only [hactive, Bool.not_false, ↓reduceIte, Option.filter_some, Bool.false_eq_true,
        Option.bind_none]
      exact .refl hc hs
    | true =>
      simp only [hactive, Bool.not_true, Bool.false_eq_true, ↓reduceIte, Work.result_bind,
        Work.result_host, Work.after_host, Option.filter_some, Option.bind_some]
      cases (m.host.modules.get? u.handle).bind (·.finalize) with
      | none => exact (Comes.refl hc hs).setState u.handle .finalized
      | some hook =>
        simp only [Work.result_bind]
        exact (callHook_comes hn ho hc hs hunit hook).setState u.handle .finalized

theorem Awaits.finalized (h : Awaits (units X ++ G) us (v :: vs) .active σ r m) (hn : n.Lawful)
    (ha : ∀ w ∈ v :: vs, m.Attached w) (report : ShutdownReport)
    (hown : ((finalizeUnit n r report v.handle).result m).1.Owned) :
    let done := finalizeUnit n r report v.handle
    Awaits (units X ++ G) us vs .active (Function.update σ v.handle .finalized) (done.result m).1
        (done.after m) ∧
      (∀ w ∈ vs, (done.after m).Attached w) ∧ (done.after m).host.source = m.host.source := by
  intro done
  obtain ⟨es, -, -, -, hplain, hd, hreads, -⟩ := finalizeUnit_does (X := X) hn h.orderly h.reads
    h.head_mem h.head_state (ha v (List.mem_cons_self ..)) report
  exact ⟨h.tail hd hreads hown, h.attached_tail hd hplain ha, hd.moves.around.source⟩

theorem finalizeEnd?_handle (hr : r.Reads us σ) (hnodup : (us.map (·.handle)).Nodup) (hv : v ∈ us)
    (hs : σ v.handle = .active) (ha : m.Attached v) :
    (finalizeEnd? n r v.handle m).toList.map (·.1.handle) =
      if m.host.source.exports .finalize v then [v.handle] else [] := by
  obtain ⟨w, hw, -, hstate⟩ := hr.unit? hnodup hv
  obtain ⟨mod, hload, hmod⟩ := ha
  have hactive : w.isActive = true := by simp [DeclaredUnit.isActive, hstate, hs]
  have hhandle := handle_of_unit? hw
  unfold finalizeEnd? SourceOf.exports
  simp only [hw, hload, hmod, Option.filter_some, hactive, ↓reduceIte, Option.bind_some,
    ModuleOf.hook?]
  cases mod.finalize with
  | none => rfl
  | some hook => simp [hhandle]

theorem finalizeUnits_comes (hn : n.Lawful) (vs : List DeclaredUnit)
    (h : Awaits (units X ++ G) us vs .active σ r m) (ha : ∀ v ∈ vs, m.Attached v)
    (hc : r.Collects es) (hs : r.Sound) (report : ShutdownReport) :
    let ends := finalizeEnds n (r, report) (vs.map (·.handle)) m
    Comes es r ends ((finalizeUnits n r report (vs.map (·.handle))).result m).1 ∧
      ends.map (·.1.handle) =
        (vs.filter fun v => m.host.source.exports .finalize v).map (·.handle) := by
  induction vs generalizing σ r m es report with
  | nil => exact ⟨.refl hc hs, rfl⟩
  | cons v vs ih =>
    have hfirst := finalizeUnit_comes hn h.orderly hc hs v.handle report
    obtain ⟨hnext, hattached, hsource⟩ := h.finalized hn ha report hfirst.sound.isOwned
    obtain ⟨hrest, hhandles⟩ := ih hnext hattached hfirst.collects hfirst.sound
      ((finalizeUnit n r report v.handle).result m).2
    have hend := finalizeEnd?_handle (n := n) h.reads h.nodup h.head_mem h.head_state
      (ha v (List.mem_cons_self ..))
    rw [hsource] at hhandles
    refine ⟨hfirst.trans hrest, ?_⟩
    rw [List.map_cons, finalizeEnds, List.map_append, hend, hhandles, List.filter_cons]
    by_cases hexports : m.host.source.exports .finalize v = true
    · rw [if_pos hexports, if_pos hexports, List.map_cons, List.singleton_append]
    · rw [if_neg hexports, if_neg hexports, List.nil_append]

/-- A runtime that comes to its end has the hooks of all its units called. Its replacements stay. -/
theorem Running.comes (h : Running n m rt m') (hn : n.Lawful) (ho : m.Orderly G) :
    let published := rt.replacements.published
    let ends := finalizeEnds n (rt.registry, {}) rt.registry.handles m'.retired
    let after := ((finalize n rt).result m'.retired).1
    rt.registry = published ∧ after.replacements = rt.replacements ∧
      Comes published.entries published ends after.registry ∧
      ends.map (·.1.handle) =
        (m.declares.filter fun u => m.host.source.exports .finalize u).map (·.handle) := by
  intro published ends after
  obtain ⟨-, -, -, -, -, hreads, ha, hsource, ho₁, hrt⟩ := h.ready hn ho
  obtain ⟨r, m₁, hpending, hpost⟩ := h.exists_pending hn ho
  obtain ⟨hsound, -⟩ := hpending.sound hn ho hpost
  have hserves := ho₁.host.runtime rt hrt
  have hsame : published = rt.registry := hserves.published
  rw [← hsame] at hreads
  have hawaits := Awaits.all (orderly_retired hrt (hserves.published ▸ hreads) ho₁) hreads
    hsound.isOwned
  have hcollects : published.Collects published.entries := ⟨fun _ => rfl, hsound.distinct⟩
  have hretired : ∀ v ∈ m.declares, m'.retired.Attached v := ha
  obtain ⟨hcomes, hhandles⟩ :=
    finalizeUnits_comes hn m.declares hawaits hretired hcollects hsound {}
  have hsources : m'.retired.host.source = m.host.source := hsource
  have hresult : after = { rt with
      registry := ((finalizeUnits n published {} published.handles).result m'.retired).1
      finalized := true } := by
    show ((finalize n rt).result m'.retired).1 = _
    rw [finalize, hserves.unfinished, if_neg Bool.false_ne_true, hsame]
    rfl
  have hends : ends = finalizeEnds n (published, {}) published.handles m'.retired := by rw [hsame]
  rw [← hreads.handles_eq, ← hends] at hcomes hhandles
  rw [hsources] at hhandles
  refine ⟨hsame.symm, ?_, ?_, hhandles⟩
  · rw [hresult]
  · rw [hresult]
    exact hcomes

theorem running_of_install (hstart : (start n).result m = .ok rt)
    (hfree : ((start n).after m).host.runtime = none) :
    Running n m rt ((UnitOp.install n rt).after ((start n).after m)) := by
  apply running_of_start hstart []
  · show ((UnitOp.install n rt).after ((start n).after m)).host.runtime = some rt
    unfold UnitOp.install
    simp only [Work.after_bind, Work.result_host, Work.after_host, hfree]
    rfl
  · rfl

end Startup

open Startup in
/-- A published registry stays as it is, and the registry of the runtime stays with it until the
`finalize` hooks are called. Each registration of these is judged as one of a startup is, by what
was published and what the hooks have entered since. The two tables are the same in the end, with
all late registrations refused, exactly if something in what was published, or in the registration
itself, stands against each. -/
theorem registry_readOnly_iff (d : Nat) :
    (∀ (program : Program) (ops : List Op),
      ((ops.mapM (Op.answer (.ofDepth d))).after (.ofProgram program)).Orderly []) ∧
    ∀ (G : List UnitHandle) (m : Machine), m.Orderly G →
      ∀ rt m', Running (.ofDepth d) m rt m' →
      let published := rt.replacements.published
      let ends := finalizeEnds (.ofDepth d) (rt.registry, {}) rt.registry.handles m'.retired
      let after := ((finalize (.ofDepth d) rt).result m'.retired).1
      rt.registry = published ∧ after.replacements = rt.replacements ∧
      ends.map (·.1.handle) =
        (m.declares.filter fun u => m.host.source.exports .finalize u).map (·.handle) ∧
      (∀ before u e behind pre entry reply post, ends = before ++ (u, e) :: behind →
        e.calls = pre ++ (entry, reply) :: post →
        reply = .status
          (if registrationFaults u.name
              (published.entries ++ acceptedBy before ++ acceptedEntries u pre) entry = []
          then Status.ok else Status.error)) ∧
      published.entries <+: after.registry.entries ∧
      after.registry.Collects (published.entries ++ acceptedBy ends) ∧
      (∀ u ∈ after.registry.units, u.methods = after.registry.methodsOf u.handle) ∧
      (after.registry.entries = published.entries ↔
        ∀ e ∈ acceptedBy ends, e.method ∈ published.entries.map (·.method)) ∧
      ((∀ p ∈ ends, ∀ call ∈ p.2.calls, call.2 = .status Status.error) ∧
          after.registry.entries = published.entries ↔
        ∀ p ∈ ends, ∀ call ∈ p.2.calls,
          registrationFaults p.1.name published.entries call.1 ≠ []) := by
  refine ⟨fun program ops => Op.orderly_answers d ops (Machine.orderly_ofProgram program),
    fun G m ho rt m' hrunning => ?_⟩
  intro published ends after
  obtain ⟨hsame, hreplacements, hcomes, hhandles⟩ :=
    hrunning.comes (Nested.lawful_ofDepth d) ho
  refine ⟨hsame, hreplacements, hhandles, ?_, hcomes.kept, hcomes.collects, hcomes.sound.methods,
    hcomes.entries_eq_iff, ?_⟩
  · intro before u e behind pre entry reply post hends hcalls
    have hturn : InTurn published.entries (before ++ (u, e) :: behind) := hends ▸ hcomes.inTurn
    have hjudged := hturn.judged
    rw [hcalls] at hjudged
    exact hjudged.reply_eq
  · have hiff := hcomes.inTurn.refused_iff
    rw [← hiff]
    apply and_iff_left_of_imp
    intro hrefused
    apply hcomes.entries_eq_iff.2
    have hnone : acceptedBy ends = [] := acceptedBy_of_refused hrefused
    rw [hnone]
    exact List.forall_mem_nil _

/-- A program with a unit that registers nothing before its `finalize` hook. -/
def registeringLate : Program where
  settings := { enabled := true, units := ["libA_1"] }
  source :=
    { load := fun _ => .ok
        { location := "libA_1"
          init := some fun _ => .done Status.ok
          exports := some (.done (some ⟨abiVersion, 0, none⟩))
          finalize := some fun x =>
            .ask (.call (.register x (some (Samples.Math.entry "demo/Late" "answer" "()I" "n_answer"
              (some ⟨none, "f"⟩) none [5])))) fun _ => .done Status.ok }
      contains := fun _ => true }
  native := fun _ => none
  provider := fun _ => none
  steps := [.units .start, .units .shutdown]

open Startup in
/-- The late registration of this program is accepted, so that its runtime ends with an entry that
was not published. -/
theorem registeringLate_accepted :
    let m : Machine := .ofProgram registeringLate
    let n : Nested := .ofDepth 0
    m.Orderly [] ∧ ∃ rt m', Running n m rt m' ∧
      let ends := finalizeEnds n (rt.registry, {}) rt.registry.handles m'.retired
      let after := ((finalize n rt).result m'.retired).1
      ends.map (fun p => p.2.calls.map (·.2)) = [[.status Status.ok]] ∧
      after.registry.entries ≠ rt.replacements.published.entries ∧
      after.registry.units.map (·.methods) ≠ rt.replacements.published.units.map (·.methods) := by
  intro m n
  have hfree : ((start n).after m).host.runtime.isNone := by decide +kernel
  have hstarted : ((start n).result m).toOption.any (fun rt =>
      let m' := (UnitOp.install n rt).after ((start n).after m)
      let ends := finalizeEnds n (rt.registry, {}) rt.registry.handles m'.retired
      let after := ((finalize n rt).result m'.retired).1
      ends.map (fun p => p.2.calls.map (·.2)) = [[.status Status.ok]] ∧
      after.registry.entries ≠ rt.replacements.published.entries ∧
      after.registry.units.map (·.methods) ≠
        rt.replacements.published.units.map (·.methods)) = true := by decide +kernel
  have ho : m.Orderly [] := Machine.orderly_ofProgram registeringLate
  clear_value m n
  cases hstart : (start n).result m with
  | error err =>
    rw [hstart] at hstarted
    cases hstarted
  | ok rt =>
    rw [hstart] at hstarted
    exact ⟨ho, rt, _, running_of_install hstart (Option.isNone_iff_eq_none.1 hfree),
      of_decide_eq_true hstarted⟩

end AccelHost
