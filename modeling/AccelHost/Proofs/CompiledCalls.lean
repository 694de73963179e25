import AccelHost.Proofs.AskedOnce
import AccelHost.Proofs.Modes
import AccelHost.Proofs.RejectedCalls
import AccelHost.Proofs.Steady
import Mathlib.Data.Finset.Card

/-!
The calls that a runtime keeps. Its table of compiled calls begins empty and has a call for each
method that was compiled since, whoever compiled it and whatever came of the calls. A call that is
kept stays as long as the runtime does, and with whoever has its replacements at hand after that.
The table is locked while a method is lowered, so nothing else is compiled meanwhile.
-/
namespace AccelHost

variable {K : List UnitHandle} {j : Nat} {m m' : Machine} {ds ds' : List Dealing}

/-- The method that a dealing compiles for the replacements of a number, if the host at work has
that done. -/
def Dealing.compiles? (id : Nat) : Dealing → Option Method
  | compiled id' method => if id' = id then some method else none
  | step _ _ d => d.compiles? id
  | _ => none

/-- The methods that are compiled for the replacements of a number. -/
def methodsCompiled (id : Nat) (ds : List Dealing) : List Method :=
  ds.filterMap (Dealing.compiles? id)

section Methods

variable {id : Nat} {h : Host} {e : Entry} {answer : Option CodeRef} {d : Dealing}

@[simp] theorem methodsCompiled_append :
    methodsCompiled id (ds ++ ds') = methodsCompiled id ds ++ methodsCompiled id ds' :=
  List.filterMap_append

@[simp] theorem methodsCompiled_map_step (op : Op) (m : Machine) :
    methodsCompiled id (ds.map (.step op m)) = methodsCompiled id ds := by
  rw [methodsCompiled, List.filterMap_map]
  rfl

@[simp] theorem methodsCompiled_map_within : methodsCompiled id (ds.map .within) = [] := by
  rw [methodsCompiled, List.filterMap_map]
  exact List.filterMap_eq_nil_iff.2 fun _ _ => rfl

theorem methodsCompiled_compiled (id' : Nat) (method : Method) :
    methodsCompiled id [.compiled id' method] = if id' = id then [method] else [] := by
  by_cases hid : id' = id <;> simp [methodsCompiled, Dealing.compiles?, hid]

theorem Dealing.Finds.compiles_nothing (hd : d.Finds h e answer) :
    methodsCompiled id [d] = [] := by
  rcases hd with rfl | ⟨rfl, -⟩ <;> rfl

/-- Where a provider is asked, only what is compiled meanwhile is compiled. -/
theorem Dealing.Finds.compiles_meanwhile (hd : d.Finds h e answer) :
    methodsCompiled id (.asked e :: ds ++ [d]) = methodsCompiled id ds := by
  rw [methodsCompiled_append, hd.compiles_nothing, List.append_nil]
  rfl

end Methods

/-- A list with one more method, unless that is there. -/
def enlist (methods : List Method) (method : Method) : List Method :=
  if method ∈ methods then methods else methods ++ [method]

section Enlist

variable {methods new : List Method} {method : Method}

theorem mem_foldl_enlist :
    method ∈ new.foldl enlist methods ↔ method ∈ methods ∨ method ∈ new := by
  induction new generalizing methods with
  | nil => simp
  | cons a new ih =>
    rw [List.foldl_cons, ih, enlist]
    split
    · rename_i ha
      have hold : method = a → method ∈ methods := fun h => h ▸ ha
      rw [List.mem_cons]
      tauto
    · rw [List.mem_append, List.mem_singleton, List.mem_cons, or_assoc]

theorem nodup_foldl_enlist (hn : methods.Nodup) : (new.foldl enlist methods).Nodup := by
  induction new generalizing methods with
  | nil => exact hn
  | cons a new ih =>
    refine ih ?_
    unfold enlist
    split
    · exact hn
    · rename_i ha
      exact List.nodup_append.2 ⟨hn, by simp, fun b hb c hc he => ha (by simp_all)⟩

theorem length_foldl_enlist (hn : methods.Nodup) :
    (new.foldl enlist methods).length = (methods ++ new).toFinset.card := by
  rw [← List.toFinset_card_of_nodup (nodup_foldl_enlist hn)]
  congr 1
  ext method
  simp [mem_foldl_enlist]

end Enlist

theorem Keyed.eq_of_keys {κ ν : Type} {t t' : Keyed κ ν} (hk : t'.keys = t.keys)
    (hv : ∀ k v v', (k, v) ∈ t → (k, v') ∈ t' → v' = v) : t' = t := by
  induction t generalizing t' with
  | nil => exact List.map_eq_nil_iff.1 hk
  | cons p t ih =>
    cases t' with
    | nil => cases hk
    | cons p' t' =>
      obtain ⟨k, v⟩ := p
      obtain ⟨k', v'⟩ := p'
      obtain ⟨rfl, hrest⟩ := List.cons.inj hk
      rw [hv _ v v' (List.mem_cons_self ..) (List.mem_cons_self ..), ih hrest fun k v v' h h' =>
        hv k v v' (List.mem_cons_of_mem _ h) (List.mem_cons_of_mem _ h')]

namespace Host

/-- The calls that are kept for the replacements of a number, if a runtime in use has these. -/
def cachedUnder (h : Host) (id : Nat) : Keyed Method CompiledCall :=
  match h.runtime with
  | some rt => if rt.replacements.id = id then rt.replacements.compiled else []
  | none => []

theorem cachedUnder_of_runtime {h : Host} {rt : Runtime} (hrt : h.runtime = some rt) :
    h.cachedUnder rt.replacements.id = rt.replacements.compiled := by
  simp [cachedUnder, hrt]

theorem cachedUnder_eq_nil {h : Host} {id : Nat}
    (hid : ∀ rt, h.runtime = some rt → rt.replacements.id ≠ id) : h.cachedUnder id = [] := by
  unfold cachedUnder
  cases hrt : h.runtime with
  | none => rfl
  | some rt => exact if_neg (hid rt hrt)

end Host

def Machine.Timely (m : Machine) : Prop :=
  ∀ rt, m.host.runtime = some rt → rt.replacements.id < m.host.serial

theorem Machine.Timely.of_eq (ht : m.Timely) (hr : m'.host.runtime = m.host.runtime)
    (hs : m'.host.serial = m.host.serial) : m'.Timely := by
  unfold Timely
  rw [hr, hs]
  exact ht

theorem Host.runtime_keep {h : Host} {rs : Replacements} {method : Method} {plan : CallPlan}
    {rt' : Runtime} (hrt' : (h.keep rs method plan).runtime = some rt') :
    ∃ rt, h.runtime = some rt ∧ rt'.replacements = if rt.replacements.id = rs.id then
      { rt.replacements with
        compiled := rt.replacements.compiled.set method ⟨plan, .cached rs.id method⟩ }
      else rt.replacements := by
  unfold keep modifyReplacements at hrt'
  cases hrt : h.runtime with
  | none => simp [hrt] at hrt'
  | some rt =>
    simp only [hrt, Option.some_inj] at hrt'
    exact ⟨rt, rfl, by rw [← hrt']⟩

namespace Chronicle

theorem timely (h : Chronicle K j m ds m') (ht : m.Timely) : m'.Timely := by
  induction h with
  | plain hp =>
    intro rt' hrt'
    rcases hp.runtime rt' hrt' with ⟨rt, hrt, he⟩ | ⟨-, hlt, -⟩
    · rw [he]
      exact Nat.lt_of_lt_of_le (ht rt hrt) hp.around.serial
    · exact hlt
  | trans _ _ ih₁ ih₂ => exact ih₂ (ih₁ ht)
  | hook _ ih | hold _ ih | step _ _ ih => exact ih ht
  | @nested _ m m' p ds hc _ _ =>
    intro rt hrt
    rw [hc.around.waited_leave.1.rest] at hrt ⊢
    exact ht rt hrt
  | known | unnamed | cached => exact ht
  | @ask _ depth _ e _ _ _ _ _ htarget hp _ _ _ _ ih =>
    obtain ⟨-, hruntime, hserial, -⟩ :=
      Dispatch.nativeFunc_asks (i := e.id) (n := .ofDepth depth) htarget hp
    exact (ih ht).of_eq hruntime hserial
  | @keep _ m m' rs method plan ds _ _ ih =>
    intro rt' hrt'
    obtain ⟨rt, hrt, he⟩ := Host.runtime_keep hrt'
    have hserial : ((m'.withHost (m'.host.keep rs method plan)).withLocks
        m.host.locks).host.serial = m'.host.serial := m'.host.serial_keep rs method plan
    rw [he, hserial]
    split <;> exact ih ht rt hrt

theorem compiled_lt (h : Chronicle K j m ds m') {id : Nat} {method : Method}
    (hm : method ∈ methodsCompiled id ds) : id < m'.host.serial := by
  induction h with
  | plain => cases hm
  | trans _ h₂ ih₁ ih₂ =>
    rw [methodsCompiled_append, List.mem_append] at hm
    exact hm.elim (fun hm => Nat.lt_of_lt_of_le (ih₁ hm) h₂.around.serial) ih₂
  | hook _ ih | hold _ ih => exact ih hm
  | nested =>
    rw [methodsCompiled_map_within] at hm
    cases hm
  | step _ _ ih =>
    rw [methodsCompiled_map_step] at hm
    exact ih hm
  | known _ _ _ hd | unnamed _ _ _ _ hd =>
    rw [hd.compiles_nothing] at hm
    cases hm
  | @ask _ depth _ e _ _ _ _ _ htarget hp _ _ _ hd ih =>
    obtain ⟨-, -, hserial, -⟩ :=
      Dispatch.nativeFunc_asks (i := e.id) (n := .ofDepth depth) htarget hp
    rw [hd.compiles_meanwhile] at hm
    rw [hserial]
    exact ih hm
  | cached _ hlt =>
    rw [methodsCompiled_compiled, List.mem_ite_nil_right] at hm
    exact hm.1 ▸ hlt
  | @keep _ m m' rs method plan ds hlt hc ih =>
    have hserial : ((m'.withHost (m'.host.keep rs method plan)).withLocks
        m.host.locks).host.serial = m'.host.serial := m'.host.serial_keep rs method plan
    rw [hserial]
    rw [methodsCompiled_append, List.mem_append, methodsCompiled_compiled,
      List.mem_ite_nil_right] at hm
    rcases hm with hm | ⟨rfl, -⟩
    · exact ih hm
    · exact Nat.lt_of_lt_of_le hlt hc.around.serial

/-- The table of a runtime has the methods that it had before, if the runtime was in use then, and
those compiled since. -/
theorem keys_compiled (h : Chronicle K j m ds m') (ht : m.Timely) {rt' : Runtime}
    (hrt' : m'.host.runtime = some rt') : rt'.replacements.compiled.keys =
      (methodsCompiled rt'.replacements.id ds).foldl enlist
        (m.host.cachedUnder rt'.replacements.id).keys := by
  induction h generalizing rt' with
  | plain hp =>
    rcases hp.runtime rt' hrt' with ⟨rt, hrt, he⟩ | ⟨hle, -, hnil⟩
    · rw [he, Host.cachedUnder_of_runtime hrt]
      rfl
    · rw [hnil, Host.cachedUnder_eq_nil fun rt hrt =>
        Nat.ne_of_lt (Nat.lt_of_lt_of_le (ht rt hrt) hle)]
      rfl
  | @trans _ m₁ m₂ m₃ ds ds' h₁ h₂ ih₁ ih₂ =>
    rw [ih₂ (h₁.timely ht) hrt', methodsCompiled_append, List.foldl_append]
    congr 1
    by_cases hid : rt'.replacements.id < m₂.host.serial
    · obtain ⟨rt, hrt, he⟩ := h₂.around.runtime_of_id hrt' hid
      rw [← he, Host.cachedUnder_of_runtime hrt]
      exact ih₁ ht hrt
    · -- The runtime was published since: there was nothing to compile for it before.
      have hle := Nat.le_of_not_lt hid
      have hnil : methodsCompiled rt'.replacements.id ds = [] :=
        List.eq_nil_iff_forall_not_mem.2 fun method hm => hid (h₁.compiled_lt hm)
      have hlater {m : Machine} (ht : m.Timely) (hs : m.host.serial ≤ m₂.host.serial) :
          m.host.cachedUnder rt'.replacements.id = [] :=
        Host.cachedUnder_eq_nil fun rt hrt =>
          Nat.ne_of_lt (Nat.lt_of_lt_of_le (ht rt hrt) (Nat.le_trans hs hle))
      rw [hnil, hlater ht h₁.around.serial, hlater (h₁.timely ht) (Nat.le_refl _)]
      rfl
  | hook _ ih | hold _ ih => exact ih ht hrt'
  | nested hc =>
    rw [hc.around.waited_leave.1.rest] at hrt'
    rw [methodsCompiled_map_within]
    exact (congrArg _ (Host.cachedUnder_of_runtime hrt')).symm
  | step _ _ ih =>
    rw [methodsCompiled_map_step]
    exact ih ht hrt'
  | known _ _ _ hd =>
    rw [hd.compiles_nothing, Host.cachedUnder_of_runtime hrt']
    rfl
  | @unnamed _ m _ _ _ _ _ _ hd =>
    have hrt : m.host.runtime = some rt' := hrt'
    rw [hd.compiles_nothing, Host.cachedUnder_of_runtime hrt]
    rfl
  | @ask _ depth _ e _ _ _ _ _ htarget hp _ _ _ hd ih =>
    obtain ⟨-, hruntime, -⟩ :=
      Dispatch.nativeFunc_asks (i := e.id) (n := .ofDepth depth) htarget hp
    rw [hruntime] at hrt'
    rw [hd.compiles_meanwhile]
    exact ih ht hrt'
  | @cached _ m r method hrt _ hmem =>
    have hsame : m.host.runtime = some rt' := hrt'
    rw [hrt] at hsame
    cases hsame
    rw [Host.cachedUnder_of_runtime hrt, methodsCompiled_compiled, if_pos rfl]
    simp [enlist, hmem]
  | keep _ _ ih =>
    obtain ⟨rt, hrt, he⟩ := Host.runtime_keep hrt'
    have hkeys := ih ht hrt
    rw [he, methodsCompiled_append, List.foldl_append, methodsCompiled_compiled]
    split
    · rename_i hid
      rw [if_pos hid.symm]
      exact (Keyed.keys_set ..).trans (congrArg (enlist · _) hkeys)
    · rename_i hid
      rw [if_neg (Ne.symm hid)]
      exact hkeys

/-- While the compiled calls are locked, nothing is compiled, unless that waits for ever. -/
theorem locked_calls (h : Chronicle K j m ds m') {id : Nat} (hl : .calls id ∈ m.host.locks) :
    m'.stuck = true ∨ methodsCompiled id ds = [] := by
  induction h with
  | plain => exact .inr rfl
  | trans h₁ h₂ ih₁ ih₂ =>
    rcases ih₁ hl with hs | hnil
    · exact .inl (h₂.around.stuck hs)
    · exact (ih₂ (h₁.locks_eq ▸ hl)).imp_right fun hnil' => by simp [hnil, hnil']
  | hook _ ih => exact ih hl
  | nested => exact .inr methodsCompiled_map_within
  | step _ _ ih => simpa using ih hl
  | hold _ ih => exact ih (List.mem_cons_of_mem _ hl)
  | known _ _ _ hd | unnamed _ _ _ _ hd => exact .inr hd.compiles_nothing
  | @ask _ depth _ e _ _ _ _ _ ht hp _ _ _ hd ih =>
    obtain ⟨hstuck, -⟩ := Dispatch.nativeFunc_asks (i := e.id) (n := .ofDepth depth) ht hp
    rw [hd.compiles_meanwhile, hstuck]
    exact ih (List.mem_cons_of_mem _ hl)
  | @cached _ m r method =>
    by_cases hid : r.replacements.id = id
    · subst hid
      exact .inl (Machine.stuck_of_mem hl)
    · exact .inr (by rw [methodsCompiled_compiled, if_neg hid])
  | @keep _ m m' rs method plan ds _ hc ih =>
    by_cases hid : rs.id = id
    · subst hid
      exact .inl (hc.around.stuck (Machine.stuck_of_mem hl))
    · rw [methodsCompiled_append, methodsCompiled_compiled, if_neg hid, List.append_nil]
      exact ih (List.mem_cons_of_mem _ hl)

end Chronicle

theorem DispatchOp.result_compiledCount (n : Nested) {rt : Runtime}
    (hrt : m.host.runtime = some rt) : (DispatchOp.compiledCount.perform n).result m =
      .ok (.count rt.replacements.compiled.length) := by
  simp only [DispatchOp.perform, withReplacements, Host.replacements?, hrt, Work.result_bind,
    Work.result_host, Work.after_host, Dispatch.compiledCount, Work.result_pure]

/-! ### One call for each method -/

variable {G G' K' : List UnitHandle} {n : Nested}

theorem Machine.Discreet.timely (hd : m.Discreet G K) : m.Timely := fun rt hrt =>
  (hd.orderly.host.runtime rt hrt).serial

theorem Host.exists_of_cachedUnder {h : Host} {id : Nat} {method : Method} {c : CompiledCall}
    (hc : (h.cachedUnder id).get? method = some c) : ∃ rt, h.runtime = some rt ∧
      rt.replacements.id = id ∧ rt.replacements.compiled.get? method = some c := by
  unfold cachedUnder at hc
  split at hc
  · rename_i rt hrt
    split at hc
    · rename_i hid
      exact ⟨rt, hrt, hid, hc⟩
    · cases hc
  · cases hc

/-- What was in use before under the same number published the same. -/
theorem published_of_id (ha : Around m m') (hd : m.Discreet G K) {rt rt' : Runtime}
    (hrt : m.host.runtime = some rt) (hrt' : m'.host.runtime = some rt')
    (hid : rt'.replacements.id = rt.replacements.id) :
    rt'.replacements.published = rt.replacements.published := by
  have hs : m.host.replacements? = some rt.replacements := by simp [Host.replacements?, hrt]
  have hs' : m'.host.replacements? = some rt'.replacements := by simp [Host.replacements?, hrt']
  exact (ha.published_eq hd.orderly.host hs hs' hid).1

/-- A call that is kept stays, for its entry and its function are settled. -/
theorem Account.call_kept (ha : Account K j m ds m') (hd : m.Discreet G K)
    (hd' : m'.Discreet G' K') {rt' : Runtime} (hrt' : m'.host.runtime = some rt')
    {method : Method} {c : CompiledCall}
    (hc : (m.host.cachedUnder rt'.replacements.id).get? method = some c) :
    rt'.replacements.compiled.get? method = some c := by
  obtain ⟨rt, hrt, hid, hget⟩ := Host.exists_of_cachedUnder hc
  have hpublished := published_of_id ha.chronicle.around hd hrt hrt' hid.symm
  obtain ⟨e, func, he, hf, rfl⟩ := (hd.orderly.host.runtime rt hrt).compiled method c
    (Keyed.mem_of_get? hget)
  have hkey : method ∈ rt'.replacements.compiled.keys := by
    rw [ha.chronicle.keys_compiled hd.timely hrt', ← hid, Host.cachedUnder_of_runtime hrt]
    exact mem_foldl_enlist.2 (.inl (List.mem_map.2 ⟨_, Keyed.mem_of_get? hget, rfl⟩))
  cases hget' : rt'.replacements.compiled.get? method with
  | none => exact absurd hkey (Keyed.get?_eq_none_iff.1 hget')
  | some c' =>
    obtain ⟨e', func', he', hf', rfl⟩ := (hd'.orderly.host.runtime rt' hrt').compiled method c'
      (Keyed.mem_of_get? hget')
    rw [hpublished, he] at he'
    cases he'
    have hlater := Host.native?_mono ha.kept hf
    rw [hf'] at hlater
    cases hlater
    rw [hid]

namespace Dispatch

variable {rs : Replacements} {method : Method} {c : CompiledCall} {err : DispatchError}

/-- A call that is kept is what the method is compiled to, once the compiled calls are not locked,
and what it is called by. -/
theorem compile_of_kept (n : Nested) (m : Machine) (hc : rs.compiled.get? method = some c) :
    ((compile n rs method).result m = .ok c ∧
      (compile n rs method).after m = m.await (.calls rs.id)) ∧
      ∀ args, let invoke := invoke n rs method .compiled args
        invoke.result m = (call n c.plan args).result (m.await (.calls rs.id)) ∧
          invoke.after m = (call n c.plan args).after (m.await (.calls rs.id)) := by
  simp only [compile, invoke, hc, Work.result_bind, Work.after_bind, Work.after_await,
    Work.result_pure, Work.after_pure, and_self, implies_true]

theorem kept_of_compile (hrs : m.host.replacements? = some rs)
    (hc : (compile n rs method).result m = .ok c) {rt' : Runtime}
    (hrt' : ((compile n rs method).after m).host.runtime = some rt')
    (hid : rt'.replacements.id = rs.id) : rt'.replacements.compiled.get? method = some c := by
  cases hget : rs.compiled.get? method with
  | some c' =>
    obtain ⟨⟨hresult, hafter⟩, -⟩ := compile_of_kept n m hget
    rw [hresult] at hc
    cases hc
    rw [hafter, Machine.host_await] at hrt'
    have hsame : rs = rt'.replacements := by simpa [Host.replacements?, hrt'] using hrs.symm
    rw [← hsame]
    exact hget
  | none =>
    unfold compile at hc hrt'
    simp only [hget, Work.result_bind, Work.after_bind, Work.after_await] at hc hrt'
    cases he : rs.published.find? method with
    | none => simp [he] at hc
    | some e =>
      simp only [he, Work.result_holding, Work.after_holding, Machine.hold_await,
        result_lowerKept, after_lowerKept] at hc hrt'
      cases hp : (lower n e).result (m.hold (.calls rs.id)) with
      | error err =>
        rw [hp] at hc
        cases hc
      | ok plan =>
        rw [hp] at hc hrt'
        cases hc
        obtain ⟨rt, -, heq⟩ := Host.runtime_keep hrt'
        have hsame : rt.replacements.id = rs.id := by
          rw [← hid, heq]
          split <;> rfl
        rw [heq, if_pos hsame]
        exact Keyed.get?_set_self ..

theorem unloaded_or_null_of_lower {e : Entry} (herr : (lower n e).result m = .error err) :
    (lower n e).after m = m ∨ ((lower n e).after m).host.native? e = none := by
  cases hl : m.host.isLoaded e with
  | false => exact .inl (by simp [after_lower, Dispatch.asked, hl])
  | true =>
    right
    rw [result_lower_of_loaded hl] at herr
    rw [after_lower, Dispatch.asked, if_pos hl]
    cases hf : (nativeFunc n e).result m with
    | some func =>
      rw [hf] at herr
      cases herr
    | none =>
      cases ht : e.target with
      | direct code => simp [nativeFunc, ht] at hf
      | provided provider data =>
        have hknown := known_of_nativeFunc (n := n) (m := m) (e := e)
          (by simp [Entry.isProvided, ht])
        simp [Host.native?, ht, hknown, hf]

theorem not_kept_of_failed (hn : n.Recorded j) (hd : m.Discreet G K)
    (hrs : m.host.replacements? = some rs) (herr : (compile n rs method).result m = .error err)
    {rt' : Runtime} (hrt' : ((compile n rs method).after m).host.runtime = some rt')
    (hid : rt'.replacements.id = rs.id) : rt'.replacements.compiled.get? method = none := by
  obtain ⟨hd', ds, hds, -⟩ := compile_recounts hn hd hrs method
  cases hget : rt'.replacements.compiled.get? method with
  | none => rfl
  | some c =>
    exfalso
    -- What is kept where nothing happened would have been found.
    have hhappened : ((compile n rs method).after m).host.runtime ≠ m.host.runtime := by
      intro hafter
      rw [hafter] at hrt'
      have hsame : rs = rt'.replacements := by simpa [Host.replacements?, hrt'] using hrs.symm
      rw [← hsame] at hget
      rw [(compile_of_kept n m hget).1.1] at herr
      cases herr
    rcases after_compile_of_error herr with hafter | ⟨e, he, hlower, hafter⟩
    · exact hhappened (by rw [hafter, Machine.host_await])
    · have hs' : ((compile n rs method).after m).host.replacements? = some rt'.replacements := by
        simp [Host.replacements?, hrt']
      have hpublished := (hds.around.published_eq hd.orderly.host hrs hs' hid).1
      obtain ⟨e', func, he', hf, -⟩ := (hd'.orderly.host.runtime rt' hrt').compiled method c
        (Keyed.mem_of_get? hget)
      rw [hpublished, he] at he'
      cases he'
      rw [hafter] at hf hhappened
      rcases unloaded_or_null_of_lower hlower with hsame | hnull
      · rw [hsame] at hhappened
        exact hhappened rfl
      · cases hf.symm.trans hnull

theorem not_compiled_of_bare (n : Nested) (hd : m.Discreet G K) (hrt : m.host.runtime = none)
    (hrs : m.host.replacements? = some rs) (method : Method) :
    rs.compiled = [] ∧ ∃ err, (compile n rs method).result m = .error err := by
  have hbare : m.host.bareReplacements = some rs := by
    simpa [Host.replacements?, hrt] using hrs
  have hnil := (hd.orderly.host.exposed rs hbare).compiled
  refine ⟨hnil, ?_⟩
  unfold compile
  rw [hnil]
  cases he : rs.published.find? method with
  | none => exact ⟨_, rfl⟩
  | some e =>
    have hl := hd.orderly.host.not_isLoaded hbare (Registry.mem_of_find? he)
    refine ⟨.unitUnloaded e.method e.unit, ?_⟩
    have hheld : (m.hold (.calls rs.id)).host.isLoaded e = false := hl
    simp [Keyed.get?, result_lowerKept, result_lower, hheld, Except.map]

end Dispatch

theorem Account.cache_eq (ha : Account K j m ds m') (hd : m.Discreet G K)
    (hd' : m'.Discreet G' K') {rt rt' : Runtime} (hrt : m.host.runtime = some rt)
    (hrt' : m'.host.runtime = some rt') (hid : rt'.replacements.id = rt.replacements.id)
    (hnone : methodsCompiled rt.replacements.id ds = []) :
    rt'.replacements.compiled = rt.replacements.compiled := by
  have hkeys := ha.chronicle.keys_compiled hd.timely hrt'
  rw [hid, hnone, Host.cachedUnder_of_runtime hrt] at hkeys
  refine Keyed.eq_of_keys hkeys fun method c c' hc hc' => ?_
  obtain ⟨e, func, he, hf, rfl⟩ := (hd.orderly.host.runtime rt hrt).compiled method c hc
  obtain ⟨e', func', he', hf', rfl⟩ := (hd'.orderly.host.runtime rt' hrt').compiled method c' hc'
  rw [published_of_id ha.chronicle.around hd hrt hrt' hid, he] at he'
  cases he'
  have hlater := Host.native?_mono ha.kept hf
  rw [hf'] at hlater
  cases hlater
  rw [hid]

/-- A failed compilation leaves what is kept as it is, unless it waits for ever. -/
theorem Dispatch.cache_of_failed {rs : Replacements} {method : Method} {err : DispatchError}
    (hn : n.Recorded j) (hd : m.Discreet G K) (hrs : m.host.replacements? = some rs)
    (herr : (compile n rs method).result m = .error err)
    (hs : ((compile n rs method).after m).stuck = false) {rt' : Runtime}
    (hrt' : ((compile n rs method).after m).host.runtime = some rt')
    (hid : rt'.replacements.id = rs.id) : rt'.replacements.compiled = rs.compiled := by
  rcases after_compile_of_error herr with hafter | ⟨e, he, hlower, hafter⟩
  · rw [hafter, Machine.host_await] at hrt'
    have hsame : rs = rt'.replacements := by simpa [Host.replacements?, hrt'] using hrs.symm
    rw [hsame]
  · have hd₀ := hd.hold (.calls rs.id)
    obtain ⟨hd₁, ds, hds, -⟩ := lower_recounts hn hd₀ (hd.outside_of_published hrs he)
    rw [hafter] at hs hrt'
    -- The replacements were those of a runtime, for one is in use under their number.
    obtain ⟨rt, hrt, rfl⟩ : ∃ rt, m.host.runtime = some rt ∧ rt.replacements = rs := by
      have hs' : ((lower n e).after (m.hold (.calls rs.id))).host.replacements? =
          some rt'.replacements := by
        have hrt'' : ((lower n e).after (m.hold (.calls rs.id))).host.runtime = some rt' := hrt'
        simp [Host.replacements?, hrt'']
      have hkind := (hds.around.published_eq hd₀.orderly.host hrs hs' hid).2
      unfold Host.replacements? at hrs
      cases hrt : m.host.runtime with
      | some rt => exact ⟨rt, rfl, by simpa [hrt] using hrs⟩
      | none =>
        have hnone : (m.hold (.calls rs.id)).host.runtime = none := hrt
        have hsome : ((lower n e).after (m.hold (.calls rs.id))).host.runtime = some rt' := hrt'
        simp [hnone, hsome] at hkind
    rcases hds.locked_calls (List.mem_cons_self ..) with hstuck | hnone
    · cases hstuck.symm.trans hs
    · exact hds.account.cache_eq hd₀ hd₁ hrt hrt' hid hnone

/-- The compiled calls that are kept are coherent. Every host begins discreet, and at each machine
that is, a call that is kept with replacements, be they in use or left behind by a runtime, is of
the entry that these publish for its method, and of the function of that. Each operation does with
entries what it is for, and that is all that is done unless foreign code carries out operations as
well. A method is compiled by the operations that compile it, or invoke it compiled, and get past
the lowering of its entry. As long as a runtime is in use, through operations and in the middle of
foreign code, it publishes the same, every call that it keeps stays the same, and it answers with
the number of methods that it kept before or that operations compiled since. A method that is
compiled is kept. One that is not is not kept either, and leaves all that is kept as it is, unless
it waits for ever. What is kept is what the method is compiled to and called by once the calls are
not locked, with no effect of its own, and if the unit is released by then that call is refused. Of
a bare registry nothing is ever compiled. -/
theorem compiled_calls_coherent (d : Nat) :
    ((∀ p, (Machine.ofProgram p).Discreet [] []) ∧
      ∀ G K m p, Machine.Discreet G K m → (m.enter p).Discreet G K) ∧
    (∀ n m op id method, .compiled id method ∈ Op.deals n m op ↔
      ((∃ name, op = .dispatch (.compile method name)) ∨ ∃ args name vs,
        op = .dispatch (.invoke method .compiled args name) ∧ m.host.arguments args = .ok vs) ∧
      ∃ rs, m.host.replacements? = some rs ∧ id = rs.id ∧
        ∃ c, (Dispatch.compile n rs method).result m = .ok c) ∧
    ∀ (G K : List UnitHandle) (m : Machine), m.Discreet G K →
      let n := Nested.ofDepth d
      (∀ rs, Dispatch.Callable m rs → ∀ method c, (method, c) ∈ rs.compiled →
        ∃ e func, rs.published.find? method = some e ∧ m.host.native? e = some func ∧
          c = ⟨.ofEntry e func, .cached rs.id method⟩) ∧
      (∀ op : Op, Accounted K d m (op.deals n m) ((op.perform n).after m) ∧
        (d = 0 → Account K d m (op.deals n m) ((op.perform n).after m))) ∧
      (∀ m', m.Later n m' → m'.Discreet G K ∧ ∃ ds, Account K (d + 1) m ds m' ∧
        Dealing.own ds = [] ∧ ∀ rt', m'.host.runtime = some rt' →
          let id := rt'.replacements.id
          let before := m.host.cachedUnder id
          let now := rt'.replacements.compiled
          (∀ rt, m.host.runtime = some rt → rt.replacements.id = id →
            rt'.replacements.published = rt.replacements.published) ∧
          (∀ method c, before.get? method = some c → now.get? method = some c) ∧
          (before.keys.Nodup → now.keys.Nodup ∧
            (DispatchOp.compiledCount.perform n).result m' =
              .ok (.count (before.keys ++ methodsCompiled id ds).toFinset.card))) ∧
      (∀ rs method, m.host.replacements? = some rs →
        let compile := Dispatch.compile n rs method
        ∀ rt', (compile.after m).host.runtime = some rt' → rt'.replacements.id = rs.id →
          match compile.result m with
          | .ok c => rt'.replacements.compiled.get? method = some c
          | .error _ => rt'.replacements.compiled.get? method = none ∧
            ((compile.after m).stuck = false → rt'.replacements.compiled = rs.compiled)) ∧
      (∀ rs method c, rs.compiled.get? method = some c →
        let compile := Dispatch.compile n rs method
        let free := m.await (.calls rs.id)
        (.calls rs.id ∉ m.host.locks → free = m) ∧
        (compile.result m = .ok c ∧ compile.after m = free) ∧
        ∀ args, let invoke := Dispatch.invoke n rs method .compiled args
          let call := Dispatch.call n c.plan args
          (invoke.result m = call.result free ∧ invoke.after m = call.after free) ∧
            (m.host.isLoaded c.plan.entry = false →
              invoke.result m = .error (.unitUnloaded c.plan.entry.method c.plan.entry.unit) ∧
                invoke.after m = free)) ∧
      ∀ rs method, m.host.runtime = none → m.host.replacements? = some rs →
        rs.compiled = [] ∧ ∃ err, (Dispatch.compile n rs method).result m = .error err := by
  have hn : (Nested.ofDepth d).Recorded d := Nested.recorded_ofDepth d
  refine ⟨⟨.ofProgram, fun G K m p hd => hd.enter p⟩,
    fun _ _ _ _ _ => Op.compiled_mem_deals_iff, fun G K m hd =>
    ⟨fun rs hrs => hrs.compiles hd.orderly, fun op => op.accounted d hd, fun m' h => ?_,
      fun rs method hrs rt' hrt' hid => ?_, fun rs method c hc => ?_, fun rs method hrt hrs =>
        Dispatch.not_compiled_of_bare _ hd hrt hrs method⟩⟩
  · obtain ⟨hd', ds, hds, hos⟩ := h.accounted hn hd
    refine ⟨hd', ds, hds, hos, fun rt' hrt' => ⟨fun rt hrt hid => ?_, fun method c hc => ?_,
      fun hnodup => ?_⟩⟩
    · exact published_of_id hds.chronicle.around hd hrt hrt' hid.symm
    · exact hds.call_kept hd hd' hrt' hc
    · have hkeys := hds.chronicle.keys_compiled hd.timely hrt'
      have hlength : rt'.replacements.compiled.length =
          rt'.replacements.compiled.keys.length := (List.length_map _).symm
      rw [DispatchOp.result_compiledCount _ hrt', hlength, hkeys, length_foldl_enlist hnodup]
      exact ⟨nodup_foldl_enlist hnodup, rfl⟩
  · cases hresult : (Dispatch.compile (.ofDepth d) rs method).result m with
    | ok c => exact Dispatch.kept_of_compile hrs hresult hrt' hid
    | error err =>
      exact ⟨Dispatch.not_kept_of_failed hn hd hrs hresult hrt' hid, fun hs =>
        Dispatch.cache_of_failed hn hd hrs hresult hs hrt' hid⟩
  · obtain ⟨hcompile, hinvoke⟩ := Dispatch.compile_of_kept (.ofDepth d) m hc
    refine ⟨Machine.await_of_not_mem, hcompile, fun args => ⟨hinvoke args, fun hl => ?_⟩⟩
    rw [(hinvoke args).1, (hinvoke args).2]
    exact Dispatch.call_of_unloaded _ args hl

/-- A call that calls another method leaves two calls with its runtime. When that is shut down they
are there for whoever has its replacements, and are refused. -/
theorem compiled_calls_coherent_twoEntries :
    let p := twoEntries .compiled
    let outer : Method := ⟨"Nest", "outer", "()I"⟩
    let later := (p.steps.mapM (Op.answer (.ofDepth 2))).after (.ofProgram p)
    ∃ rt ds, (p.after (.ofDepth 2) 2).host.runtime = some rt ∧
      Account [] 3 (.ofProgram p) ds (p.after (.ofDepth 2) 2) ∧
      (methodsCompiled rt.replacements.id ds).toFinset.card = 2 ∧
      ∃ c, rt.replacements.compiled.get? outer = some c ∧
        (Dispatch.compile (.ofDepth 2) rt.replacements outer).result later = .ok c ∧
        (Dispatch.invoke (.ofDepth 2) rt.replacements outer .compiled []).result later =
          .error (.unitUnloaded outer "libNest_1") := by
  intro p outer later
  obtain ⟨⟨hbegins, -⟩, -, hall⟩ := compiled_calls_coherent 2
  have hkept : (p.after (.ofDepth 2) 2).host.runtime.map (fun rt =>
      (rt.replacements.compiled.length, (rt.replacements.compiled.get? outer).map fun c =>
        (later.host.isLoaded c.plan.entry, c.plan.entry.method, c.plan.entry.unit))) =
      some (2, some (false, outer, "libNest_1")) := by decide +kernel
  have hm : Machine.Later (.ofDepth 2) (.ofProgram p) (p.after (.ofDepth 2) 2) :=
    .done (p.steps.take 2)
  have hm' : Machine.Later (.ofDepth 2) (.ofProgram p) later := .done p.steps
  generalize p.after (.ofDepth 2) 2 = m at hkept hm ⊢
  clear_value later p
  obtain ⟨rt, hrt, heq⟩ := Option.map_eq_some_iff.1 hkept
  obtain ⟨hlength, hget⟩ := Prod.mk.inj heq
  obtain ⟨c, hc, hentry⟩ := Option.map_eq_some_iff.1 hget
  simp only [Prod.mk.injEq] at hentry
  obtain ⟨hl, hmethod, hunit⟩ := hentry
  obtain ⟨-, -, hlater, -⟩ := hall [] [] _ (hbegins p)
  obtain ⟨-, ds, hds, -, hruntime⟩ := hlater m hm
  obtain ⟨-, -, hcount⟩ := hruntime rt hrt
  obtain ⟨-, htold⟩ := hcount List.nodup_nil
  rw [DispatchOp.result_compiledCount _ hrt, hlength] at htold
  obtain ⟨-, -, -, -, huse, -⟩ := hall [] [] later (hlater later hm').1
  obtain ⟨-, ⟨hcompile, -⟩, hinvoke⟩ := huse rt.replacements outer c hc
  refine ⟨rt, ds, hrt, hds, ?_, c, hc, hcompile, ?_⟩
  · have hbegun : ((Machine.ofProgram p).host.cachedUnder rt.replacements.id).keys = [] := rfl
    rw [hbegun, List.nil_append] at htold
    injection htold with htold
    injection htold with htold
    exact htold.symm
  · rw [((hinvoke []).2 hl).1, hmethod, hunit]

end AccelHost
