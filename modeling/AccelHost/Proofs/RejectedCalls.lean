import AccelHost.Proofs.ArgumentFaults
import AccelHost.Proofs.ManyPins
import AccelHost.Proofs.Providers
import AccelHost.Proofs.StaleReferences

/-!
Calls that are rejected. All that can stand against a call is told by the host before it, in one
order; if anything does, the first of it is the answer and nothing has happened. Otherwise the
native function is called, and then only a reference that it returns can still be refused.
-/
namespace AccelHost

open Holding

/-- An error that only the result of a native function can give. -/
inductive DispatchError.OfResult (method : Method) : DispatchError → Prop where
  | unknown {address : UInt64} : OfResult method (.unknownReference method address)
  | mismatch {k : ElemKind} {found : ObjectKind} :
    OfResult method (.returnMismatch method k found)

/-- What stands against a call of an entry with some values, in the order of its report. -/
def Host.callFaults (h : Host) (e : Entry) (args : List Value) : List DispatchError :=
  (if h.isLoaded e then [] else [.unitUnloaded e.method e.unit]) ++
    ((if args.length = e.convention.argCount then []
      else [.arityMismatch e.method e.convention.argCount args.length]) ++
    h.heap.argumentFaults e.method 0 e.convention.nativeParams args)

/-! ### Errors of results and others -/

theorem Heap.not_ofResult_of_argumentFault? {h : Heap} {method method' : Method} {index : Nat}
    {kind : ParamKind} {v : Value} {err : DispatchError}
    (he : h.argumentFault? method index kind v = some err) : ¬ err.OfResult method' := by
  rintro (_ | _)
  all_goals
    unfold Heap.argumentFault? at he
    dsimp only at he
    split at he
    all_goals try split at he
    all_goals simp at he

/-- What stands against a call is never what only its result can give. -/
theorem Host.not_ofResult_of_mem_callFaults {h : Host} {e : Entry} {args : List Value}
    {err : DispatchError} (he : err ∈ h.callFaults e args) (method : Method) :
    ¬ err.OfResult method := by
  simp only [callFaults, List.mem_append] at he
  rcases he with he | he | he
  · split at he
    · cases he
    · rw [List.mem_singleton] at he
      subst he
      rintro (_ | _)
  · split at he
    · cases he
    · rw [List.mem_singleton] at he
      subst he
      rintro (_ | _)
  · obtain ⟨⟨⟨kind, v⟩, i⟩, -, hfault⟩ := List.mem_filterMap.1 he
    exact Heap.not_ofResult_of_argumentFault? hfault

theorem Heap.cell?_of_resolveAddress {h : Heap} {address : Nat} {r : ObjRef}
    (hr : h.resolveAddress address = some r) : ∃ c, h.cell? r = some c := by
  unfold resolveAddress at hr
  split at hr
  · cases hr
  · split at hr
    · rename_i g c hslot
      split at hr
      · cases hr
        exact ⟨c, by simp [cell?, hslot]⟩
      · cases hr
    · cases hr

/-- A result is refused only as a reference: since what is resolved is live, it is nowhere, or an
array of another kind. -/
theorem CallPlan.ofResult_of_value {e : Entry} {func : CodeRef} {h : Heap} {register : UInt64}
    {err : DispatchError} (hv : (CallPlan.ofEntry e func).value h register = .error err) :
    err.OfResult e.method ∧ e.convention.result.isReference = true := by
  have hpointer : (CallPlan.ofEntry e func).refResult h register = .error err ∧
      e.convention.result.isReference = true := by
    unfold value at hv
    cases hk : e.convention.result with
    | void => simp [ofEntry, hk, NativeType.ofResult] at hv
    | prim k => simp [ofEntry, hk, NativeType.ofResult] at hv
    | _ =>
      have htype : (ofEntry e func).result = .pointer := by simp [ofEntry, hk, NativeType.ofResult]
      rw [htype] at hv
      refine ⟨?_, rfl⟩
      cases hr : (ofEntry e func).refResult h register with
      | error err' =>
        rw [hr] at hv
        cases hv
        rfl
      | ok v =>
        rw [hr] at hv
        cases hv
  refine ⟨?_, hpointer.2⟩
  have href := hpointer.1
  unfold refResult at href
  split at href
  · cases href
  · split at href
    · cases href
      exact .unknown
    · rename_i r hr
      obtain ⟨c, hc⟩ := Heap.cell?_of_resolveAddress hr
      split at href
      · simp only [Heap.kind, Heap.get_of_some hc, Except.map] at href
        split at href
        · cases href
        · cases href
          exact .mismatch
      · cases href

namespace Dispatch

variable {n : Nested} {G : List UnitHandle} {m m' : Machine} {e : Entry} {args : List Value}

/-- How a call came out that was made at a machine: with all that stood against it, and the plan if
there is one. -/
structure Outcome (faults : List DispatchError) (plan : Option CallPlan) (args : List Value)
    (m : Machine) (result : Except DispatchError (Option Value)) (m' : Machine) : Prop where
  /-- The first fault is reported, no native function is called, and the heap is as it was. -/
  rejected : ∀ err, faults.head? = some err →
    result = .error err ∧ (∀ method, ¬ err.OfResult method) ∧ m'.trace = m.trace ∧
      m.host.heap.SameButPins m'.host.heap ∧
      ((∀ r, m.host.heap.pinCount r + (args.filterMap Value.ref?).count r < UInt32.size) →
        m'.host.heap = m.host.heap)
  /-- Without a fault the native function is called, and only its result may be refused. -/
  called : faults = [] → ∃ p handed events, plan = some p ∧
    m'.trace = m.trace ++ .called p.func handed :: events ∧
    ∀ err, result = .error err →
      err.OfResult p.entry.method ∧ p.entry.convention.result.isReference = true

theorem call_of_arity {p : CallPlan} (n : Nested) (hl : m.host.isLoaded p.entry = true)
    (hcount : args.length ≠ p.entry.convention.argCount) :
    (call n p args).result m =
        .error (.arityMismatch p.entry.method p.entry.convention.argCount args.length) ∧
      (call n p args).after m = m := by
  simp only [call, Work.result_bind, Work.after_bind, Work.result_host, Work.after_host, hl,
    Bool.not_true, Bool.false_eq_true, hcount, ne_eq, not_false_eq_true, ↓reduceIte,
    Work.result_pure, Work.after_pure, and_self]

/-- An argument that is refused sends the guards of those before it back. -/
theorem call_of_refused {p : CallPlan} (n : Nested) {err : DispatchError} {s : Marshalled}
    (hl : m.host.isLoaded p.entry = true) (hcount : args.length = p.entry.convention.argCount)
    (hs : p.marshal m.host.heap args = (some err, s)) :
    (call n p args).result m = .error err ∧
      (call n p args).after m =
        m.withHost { m.host with heap := s.heap.unpinAll s.guards } := by
  simp only [call, Work.result_bind, Work.after_bind, Work.result_host, Work.after_host, hl, hcount,
    hs, Bool.not_true, Bool.false_eq_true, ne_eq, not_true_eq_false, ↓reduceIte,
    Work.after_modifyHost, Work.result_pure, Work.after_pure]
  exact ⟨trivial, rfl⟩

/-- Arguments that are all handed over reach the native function, whose register is converted when
it is done; then the guards go back. -/
theorem call_of_handed {p : CallPlan} (n : Nested) {s : Marshalled}
    (hl : m.host.isLoaded p.entry = true) (hcount : args.length = p.entry.convention.argCount)
    (hs : p.marshal m.host.heap args = (none, s)) :
    let run := runNative n p.func s.args
    let m₁ := m.withHost { m.host with heap := s.heap }
    (call n p args).result m = p.value (run.after m₁).host.heap (run.result m₁) ∧
      (call n p args).after m = (run.after m₁).withHost
        { (run.after m₁).host with heap := (run.after m₁).host.heap.unpinAll s.guards } := by
  intro run m₁
  simp only [call, Work.result_bind, Work.after_bind, Work.result_host, Work.after_host, hl, hcount,
    hs, Bool.not_true, Bool.false_eq_true, ne_eq, not_true_eq_false, ↓reduceIte,
    Work.after_modifyHost, Work.result_pure, Work.after_pure]
  exact ⟨rfl, rfl⟩

theorem head?_callFaults {h : Host} :
    (h.callFaults e args).head? =
      if h.isLoaded e = true then
        if args.length = e.convention.argCount then
          (h.heap.argumentFaults e.method 0 e.convention.nativeParams args).head?
        else some (.arityMismatch e.method e.convention.argCount args.length)
      else some (.unitUnloaded e.method e.unit) := by
  unfold Host.callFaults
  split
  · split <;> rfl
  · rfl

theorem trace_runNative (hn : n.Lawful) {X : List Holding} (func : CodeRef)
    (handed : List NativeArg) (ho : m.Orderly (units X ++ G)) :
    ∃ events,
      ((runNative n func handed).after m).trace = m.trace ++ .called func handed :: events := by
  have htold : Moves X m X { m with trace := m.trace ++ [.called func handed] } :=
    .event fun _ hx => by cases hx
  have ho₁ := (htold.orderly ho).1
  unfold runNative
  simp only [Work.after_bind, Work.after_trace, Work.result_host, Work.after_host]
  cases m.host.native func with
  | none => exact ⟨[], rfl⟩
  | some code =>
    obtain ⟨events, hevents, -⟩ := ((hn.runCode (code handed) ho₁).orderly ho₁).2.trace
    refine ⟨events, hevents.trans ?_⟩
    rw [List.append_assoc, List.singleton_append]

theorem outcome_call (hn : n.Lawful) (func : CodeRef) (args : List Value) (ho : m.Orderly G) :
    Outcome (m.host.callFaults e args) (some (.ofEntry e func)) args m
      ((call n (.ofEntry e func) args).result m) ((call n (.ofEntry e func) args).after m) where
  rejected err hf := by
    have hother := Host.not_ofResult_of_mem_callFaults (List.mem_of_mem_head? hf)
    rw [head?_callFaults] at hf
    split at hf
    · rename_i hl
      split at hf
      · rename_i hcount
        have hback := (CallPlan.ofEntry e func).unpinAll_marshal m.host.heap args
        have hs : (CallPlan.ofEntry e func).marshal m.host.heap args = (some err, _) :=
          Prod.ext (Marshalled.addAll_fst.trans hf) rfl
        obtain ⟨hresult, hafter⟩ := call_of_refused n hl hcount hs
        rw [hafter]
        exact ⟨hresult, hother, rfl, hback.1, hback.2⟩
      · rename_i hcount
        obtain ⟨hresult, hafter⟩ := call_of_arity (p := .ofEntry e func) n hl hcount
        rw [hafter, hresult]
        exact ⟨congrArg Except.error (Option.some.inj hf), hother, rfl, .refl _, fun _ => rfl⟩
    · rename_i hl
      obtain ⟨hresult, hafter⟩ := call_of_unloaded (p := .ofEntry e func) n args
        (Bool.eq_false_iff.2 hl)
      rw [hafter, hresult]
      exact ⟨congrArg Except.error (Option.some.inj hf), hother, rfl, .refl _, fun _ => rfl⟩
  called hf := by
    have hfirst := congrArg List.head? hf
    rw [head?_callFaults] at hfirst
    split at hfirst
    · rename_i hl
      split at hfirst
      · rename_i hcount
        obtain ⟨s, hs⟩ : ∃ s, (CallPlan.ofEntry e func).marshal m.host.heap args = (none, s) :=
          ⟨_, Prod.ext (Marshalled.addAll_fst.trans hfirst) rfl⟩
        obtain ⟨hresult, hafter⟩ := call_of_handed n hl hcount hs
        have hpins := (CallPlan.ofEntry e func).pins_marshal m.host.heap args
        rw [hs] at hpins
        have hmoves : Moves [] m (ofGuards s.guards ++ []) _ := .pins hpins
        obtain ⟨events, hevents⟩ := trace_runNative hn func s.args (hmoves.orderly ho).1
        refine ⟨.ofEntry e func, s.args, events, rfl, ?_, fun err herr => ?_⟩
        · rw [hafter]
          exact hevents
        · exact CallPlan.ofResult_of_value (hresult.symm.trans herr)
      · cases hfirst
    · cases hfirst

/-! ### Methods -/

/-- What stands against a call by an entry, with what lowering it may refuse. -/
def entryFaults (n : Nested) (e : Entry) (args : List Value) (m : Machine) : List DispatchError :=
  (if m.host.isLoaded e then [] else [.unitUnloaded e.method e.unit]) ++
    ((if ((nativeFunc n e).result m).isSome then []
      else [.nativeUnavailable e.method e.nativeName]) ++
    (asked n e m).host.callFaults e args)

def methodFaults (n : Nested) (rs : Replacements) (method : Method) (args : List Value)
    (m : Machine) : List DispatchError :=
  match rs.published.find? method with
  | none => [.notReplaced method]
  | some e => entryFaults n e args m

/-- The plan of a method, if its entry can be lowered. -/
def methodPlan (n : Nested) (rs : Replacements) (method : Method) (m : Machine) :
    Option CallPlan :=
  (rs.published.find? method).bind fun e => ((lower n e).result m).toOption

/-- The machine at which the native function of a method is known. -/
def methodAsked (n : Nested) (rs : Replacements) (method : Method) (m : Machine) : Machine :=
  (rs.published.find? method).elim m fun e => asked n e m

theorem Outcome.of_error {faults : List DispatchError} {plan : Option CallPlan}
    {err : DispatchError}
    (hf : faults.head? = some err) (hother : ∀ method, ¬ err.OfResult method)
    (hheap : m'.host.heap = m.host.heap) (htrace : m'.trace = m.trace) :
    Outcome faults plan args m (.error err) m' where
  rejected err' hf' := by
    have herr : err = err' := Option.some.inj (hf.symm.trans hf')
    subst herr
    exact ⟨rfl, hother, htrace, hheap ▸ .refl _, fun _ => hheap⟩
  called hnil := by
    rw [hnil] at hf
    cases hf

/-- A call begins wherever heap and trace are the same. -/
theorem Outcome.of_same {faults : List DispatchError} {plan : Option CallPlan} {m₁ : Machine}
    {result : Except DispatchError (Option Value)}
    (h : Outcome faults plan args m₁ result m') (hheap : m₁.host.heap = m.host.heap)
    (htrace : m₁.trace = m.trace) : Outcome faults plan args m result m' where
  rejected := by
    rw [← hheap, ← htrace]
    exact h.rejected
  called := by
    rw [← htrace]
    exact h.called

/-- How an entry that was lowered is called, from any machine that differs in nothing that a call
looks at. -/
theorem outcome_lowered (hn : n.Lawful) (args : List Value) {m₁ : Machine} (ho : m₁.Orderly G)
    (hheap : m₁.host.heap = (asked n e m).host.heap) (htrace : m₁.trace = (asked n e m).trace)
    (hloaded : m₁.host.loaded = (asked n e m).host.loaded) :
    let work : Work (Except DispatchError (Option Value)) :=
      match (lower n e).result m with
      | .error err => return .error err
      | .ok p => call n p args
    Outcome (entryFaults n e args m) ((lower n e).result m).toOption args (asked n e m)
      (work.result m₁) (work.after m₁) := by
  intro work
  have hlower := result_lower (n := n) (e := e) (m := m)
  by_cases hl : m.host.isLoaded e = true
  · rw [if_pos hl] at hlower
    cases hf : (nativeFunc n e).result m with
    | none =>
      rw [hf] at hlower
      simp only [work, hlower, Work.result_pure, Work.after_pure]
      refine .of_error ?_ (fun _ h => by cases h) hheap htrace
      simp [entryFaults, hl, hf]
    | some func =>
      rw [hf] at hlower
      have hfaults : entryFaults n e args m = m₁.host.callFaults e args := by
        have hsame : m₁.host.isLoaded e = (asked n e m).host.isLoaded e := by
          simp only [Host.isLoaded, Host.unitLoaded, hloaded]
        simp [entryFaults, hl, hf, Host.callFaults, hsame, hheap]
      simp only [work, hlower, hfaults]
      exact (outcome_call hn func args ho).of_same hheap htrace
  · rw [if_neg hl] at hlower
    simp only [work, hlower, Work.result_pure, Work.after_pure]
    refine .of_error ?_ (fun _ h => by cases h) hheap htrace
    simp [entryFaults, hl]

theorem outcome_interpret (hn : n.Lawful) (e : Entry) (args : List Value) (ho : m.Orderly G) :
    Outcome (entryFaults n e args m) ((lower n e).result m).toOption args (asked n e m)
      ((interpret n e args).result m) ((interpret n e args).after m) := by
  have h := outcome_lowered (m := m) hn args (orderly_asked hn e ho) rfl rfl rfl
  rw [← after_lower] at h ⊢
  exact h

/-- An entry whose function is known is called without lowering it again, from any machine that
differs in nothing that a call looks at. -/
theorem outcome_known (hn : n.Lawful) {func : CodeRef} (hf : m.host.native? e = some func)
    (args : List Value) {m₁ : Machine} (ho : m₁.Orderly G) (hheap : m₁.host.heap = m.host.heap)
    (htrace : m₁.trace = m.trace) (hloaded : m₁.host.loaded = m.host.loaded) :
    Outcome (entryFaults n e args m) ((lower n e).result m).toOption args (asked n e m)
      ((call n (.ofEntry e func) args).result m₁) ((call n (.ofEntry e func) args).after m₁) := by
  have hsame : m₁.host.isLoaded e = m.host.isLoaded e := by
    simp only [Host.isLoaded, Host.unitLoaded, hloaded]
  by_cases hl : m.host.isLoaded e = true
  · obtain ⟨hr, ha⟩ := lower_of_known (n := n) hl hf
    rw [after_lower] at ha
    have hcall := outcome_lowered (n := n) (e := e) (m := m) hn args ho (by rw [ha, hheap])
      (by rw [ha, htrace]) (by rw [ha, hloaded])
    simp only [hr] at hcall ⊢
    exact hcall
  · obtain ⟨hr, ha⟩ := call_of_unloaded (p := .ofEntry e func) (m := m₁) n args
      (hsame.trans (Bool.eq_false_iff.2 hl))
    have hasked : asked n e m = m := if_neg hl
    rw [hr, ha, hasked]
    refine .of_error ?_ (fun _ h => by cases h) hheap htrace
    simp [entryFaults, hl, CallPlan.ofEntry]

theorem settle_moves {rs : Replacements} {method : Method} (mode : CallMode)
    {lowered : Except DispatchError CallPlan} (ho : m.Orderly G)
    (hsuits : ∀ p, lowered = .ok p → m.host.Suits rs method p) :
    Moves [] m [] ((settle rs method mode lowered).after m) := by
  cases mode with
  | interpreted => exact .refl [] m
  | compiled =>
    cases lowered with
    | error err => exact .refl [] m
    | ok p => exact keep_moves ho (hsuits p rfl)

theorem settle_spec {rs : Replacements} {method : Method} (mode : CallMode)
    {lowered : Except DispatchError CallPlan} (ho : m.Orderly G)
    (hsuits : ∀ p, lowered = .ok p → m.host.Suits rs method p) :
    let kept := (settle rs method mode lowered).after m
    (settle rs method mode lowered).result m = lowered ∧ kept.Orderly G ∧
      kept.host.heap = m.host.heap ∧ kept.trace = m.trace ∧
      kept.host.loaded = m.host.loaded := by
  have hkept := ((settle_moves mode ho hsuits).orderly ho).1
  cases mode with
  | interpreted => exact ⟨rfl, hkept, rfl, rfl, rfl⟩
  | compiled =>
    cases lowered with
    | error err => exact ⟨rfl, hkept, rfl, rfl, rfl⟩
    | ok p =>
      refine ⟨rfl, hkept, ?_, rfl, Host.loaded_modifyReplacements⟩
      change (m.host.keep rs method p).heap = m.host.heap
      obtain ⟨runtime, bare, hkeep⟩ := m.host.modifyReplacements_eq _
      unfold Host.keep
      rw [hkeep]

/-- Replacements that may be called: those in use, and those that a runtime has left behind. -/
def Callable (m : Machine) (rs : Replacements) : Prop :=
  m.host.replacements? = some rs ∨ Retained m rs

theorem Callable.compiles {rs : Replacements} (hc : Callable m rs) (ho : m.Orderly G) :
    m.host.Compiles rs rs.compiled := by
  rcases hc with hrs | hrs
  · unfold Host.replacements? at hrs
    cases hr : m.host.runtime with
    | some r =>
      rw [hr] at hrs
      cases hrs
      exact (ho.host.runtime r hr).compiled
    | none =>
      rw [hr] at hrs
      rw [(ho.host.exposed rs hrs).compiled]
      exact fun _ _ hmem => by cases hmem
  · exact hrs.compiled

theorem Callable.lowersSuited {rs : Replacements} (hc : Callable m rs) (hn : n.Lawful)
    (method : Method) (ho : m.Orderly G) : LowersSuited n m rs method :=
  match hc with
  | .inl hrs => fun _ _ he hp => suits_of_lower hn hrs he hp ho
  | .inr hrs => lowersSuited_of_retained hn hrs method ho

def taken (rs : Replacements) : CallMode → Machine → Machine
  | .interpreted, m => m
  | .compiled, m => m.hold (.calls rs.id)

theorem taken_orderly (rs : Replacements) (mode : CallMode) (ho : m.Orderly G) :
    (taken rs mode m).Orderly G := by
  cases mode with
  | interpreted => exact ho
  | compiled => exact ho.of_same rfl { Host.Same.refl _ with } rfl

theorem Callable.taken {rs : Replacements} (hc : Callable m rs) (mode : CallMode) :
    Callable (taken rs mode m) rs := by
  cases mode with
  | interpreted => exact hc
  | compiled => exact hc.imp id fun h => ⟨h.serial, h.published, h.compiled⟩

theorem locked_spec {α : Type} (rs : Replacements) (mode : CallMode) (w : Work α)
    (ho : (w.after (taken rs mode m)).Orderly G) :
    let inside := w.after (taken rs mode m)
    let outside := (locked rs mode w).after m
    (locked rs mode w).result m = w.result (taken rs mode m) ∧ outside.Orderly G ∧
      outside.host.heap = inside.host.heap ∧ outside.trace = inside.trace ∧
      outside.host.loaded = inside.host.loaded := by
  cases mode with
  | interpreted => exact ⟨rfl, ho, rfl, rfl, rfl⟩
  | compiled => exact ⟨rfl, ho.of_same rfl { Host.Same.refl _ with } rfl, rfl, rfl, rfl⟩

theorem outcome_plan_cleared (hn : n.Lawful) {rs : Replacements} (hc : Callable m rs)
    (method : Method) (mode : CallMode) (args : List Value) (ho : m.Orderly G) :
    let work : Work (Except DispatchError (Option Value)) := do
      match ← plan n (cleared rs) method mode with
      | .error err => return .error err
      | .ok p => call n p args
    Outcome (methodFaults n rs method args (taken rs mode m))
      (methodPlan n rs method (taken rs mode m)) args (methodAsked n rs method (taken rs mode m))
      (work.result m) (work.after m) := by
  intro work
  obtain ⟨hplan, hplanned⟩ := plan_cleared (n := n) (m := m) rs method mode
  simp only [work, Work.result_bind, Work.after_bind, hplan, hplanned]
  have ho₀ := taken_orderly rs mode ho
  have hc₀ := hc.taken mode
  have hlocked := locked_spec (m := m) rs mode (lowerSettled n rs method mode) (G := G)
  generalize taken rs mode m = m₀ at ho₀ hc₀ hlocked ⊢
  unfold lowerSettled at hlocked ⊢
  cases he : rs.published.find? method with
  | none =>
    simp only [he] at hlocked ⊢
    obtain ⟨hresult, -, hheap, htrace, -⟩ := hlocked ho₀
    have hasked : methodAsked n rs method m₀ = m₀ := by rw [methodAsked, he, Option.elim_none]
    rw [hasked, hresult]
    refine .of_error ?_ (fun _ h => by cases h) hheap htrace
    simp [methodFaults, he]
  | some e =>
    have hfaults : methodFaults n rs method args m₀ = entryFaults n e args m₀ := by
      simp only [methodFaults, he]
    have ho₁ : ((lower n e).after m₀).Orderly G := by
      rw [after_lower]
      exact orderly_asked hn e ho₀
    obtain ⟨hsettled, ho₂, hheap, htrace, hloaded⟩ :=
      settle_spec mode ho₁ fun p hp => hc₀.lowersSuited hn method ho₀ e p he hp
    simp only [he, Work.result_bind, Work.after_bind, hsettled] at hlocked ⊢
    obtain ⟨hresult, ho₃, hheap', htrace', hloaded'⟩ := hlocked ho₂
    rw [after_lower] at hheap hheap' htrace htrace' hloaded hloaded'
    have hcall := outcome_lowered (m := m₀) hn args ho₃ (hheap'.trans hheap)
      (htrace'.trans htrace) (hloaded'.trans hloaded)
    rw [hfaults, hresult]
    simp only [methodPlan, methodAsked, he, Option.bind_some, Option.elim_some]
    exact hcall

theorem outcome_invoke (hn : n.Lawful) {rs : Replacements} (hc : Callable m rs)
    (method : Method) (mode : CallMode) (args : List Value) (ho : m.Orderly G) :
    Outcome (methodFaults n rs method args (taken rs mode m))
      (methodPlan n rs method (taken rs mode m)) args (methodAsked n rs method (taken rs mode m))
      ((invoke n rs method mode args).result m) ((invoke n rs method mode args).after m) := by
  have hcleared (mode : CallMode) := outcome_plan_cleared hn hc method mode args ho
  rw [invoke_eq]
  cases mode with
  | interpreted => exact hcleared .interpreted
  | compiled =>
    cases hget : rs.compiled.get? method with
    | none =>
      have hplan : plan n rs method .compiled = plan n (cleared rs) method .compiled := by
        unfold plan compile
        rw [hget]
        rfl
      rw [hplan]
      exact hcleared .compiled
    | some c =>
      -- What was compiled is called without lowering the entry again, which comes to the same.
      obtain ⟨e, func, he, hf, rfl⟩ := hc.compiles ho method c (Keyed.mem_of_get? hget)
      have ho₁ : (m.await (.calls rs.id)).Orderly G := ho.of_same rfl (.refl _) rfl
      have hcall :=
        outcome_known (n := n) (e := e) (m := m.hold (.calls rs.id)) hn hf args ho₁ rfl rfl rfl
      simp only [plan, compile, hget, methodFaults, methodPlan, methodAsked, he, Option.bind_some,
        Option.elim_some, Work.result_bind, Work.after_bind, Work.after_await, Work.result_pure,
        Work.after_pure, Except.map]
      exact hcall

theorem heap_methodAsked (d : Nat) (ho : m.Orderly G) {rs : Replacements} {method : Method}
    (mode : CallMode) (hs : ∀ e, rs.published.find? method = some e → e.AsksHeapless m.host) :
    (methodAsked (.ofDepth d) rs method (taken rs mode m)).host.heap = m.host.heap := by
  have ho₀ := taken_orderly rs mode ho
  have hheap : (taken rs mode m).host.heap = m.host.heap := by cases mode <;> rfl
  have hprovider : (taken rs mode m).host.provider = m.host.provider := by cases mode <;> rfl
  unfold methodAsked
  cases he : rs.published.find? method with
  | none => exact hheap
  | some e =>
    have hasks : e.AsksHeapless (taken rs mode m).host := by
      unfold Entry.AsksHeapless
      rw [hprovider]
      exact hs e he
    exact (heap_asked d ho₀ hasks).trans hheap

end Dispatch

/-- A rejected call has no effect, and a call that was not rejected can only be told that its result
is no reference of the kind that is due. What is rejected, and with which error, is known before the
call: it is the first of its faults. A provider may be asked before, which changes no heap if it
gets none. -/
theorem rejected_call_without_effect (d : Nat) :
    (∀ (program : Program) (ops : List Op),
      ((ops.mapM (Op.answer (.ofDepth d))).after (.ofProgram program)).Orderly []) ∧
    ∀ (G : List UnitHandle) (m : Machine), m.Orderly G →
      (∀ (e : Entry) (func : CodeRef) (args : List Value),
        let call := Dispatch.call (.ofDepth d) (.ofEntry e func) args
        Dispatch.Outcome (m.host.callFaults e args) (some (.ofEntry e func)) args m
          (call.result m) (call.after m)) ∧
      (∀ (e : Entry) (args : List Value),
        let call := Dispatch.interpret (.ofDepth d) e args
        Dispatch.Outcome (Dispatch.entryFaults (.ofDepth d) e args m)
          ((Dispatch.lower (.ofDepth d) e).result m).toOption args
          (Dispatch.asked (.ofDepth d) e m) (call.result m) (call.after m)) ∧
      (∀ (rs : Replacements), Dispatch.Callable m rs →
        ∀ (method : Method) (mode : CallMode) (args : List Value),
        let call := Dispatch.invoke (.ofDepth d) rs method mode args
        let begun := Dispatch.taken rs mode m
        Dispatch.Outcome (Dispatch.methodFaults (.ofDepth d) rs method args begun)
          (Dispatch.methodPlan (.ofDepth d) rs method begun) args
          (Dispatch.methodAsked (.ofDepth d) rs method begun) (call.result m) (call.after m)) ∧
      (∀ e : Entry, e.AsksHeapless m.host →
        (Dispatch.asked (.ofDepth d) e m).host.heap = m.host.heap) ∧
      ∀ (rs : Replacements) (method : Method) (mode : CallMode),
        (∀ e, rs.published.find? method = some e → e.AsksHeapless m.host) →
        (Dispatch.methodAsked (.ofDepth d) rs method (Dispatch.taken rs mode m)).host.heap =
          m.host.heap := by
  have hn := Nested.lawful_ofDepth d
  refine ⟨fun program ops => Op.orderly_answers d ops (Machine.orderly_ofProgram program),
    fun G m ho => ⟨?_, ?_, ?_, ?_, ?_⟩⟩
  · exact fun e func args => Dispatch.outcome_call hn func args ho
  · exact fun e args => Dispatch.outcome_interpret hn e args ho
  · exact fun rs hc method mode args => Dispatch.outcome_invoke hn hc method mode args ho
  · exact fun e he => Dispatch.heap_asked d ho he
  · exact fun rs method mode hs => Dispatch.heap_methodAsked d ho mode hs

def oneArray : Program where
  settings := {}
  source := { load := fun _ => .error .notBuiltIn, contains := fun _ => false }
  native := fun _ => none
  provider := fun _ => none
  steps := [.heap (.newArray .int 2 "a")]

def fillEntry : Entry where
  unit := "libFill_1"
  method := ⟨"Fill", "fill", "([II)V"⟩
  nativeName := "fill"
  target := .direct ⟨none, "fill"⟩
  convention := ⟨false, [.array .int, .prim .int], .void⟩

/-- A number behind the array is refused, and the pin of the array goes back. -/
theorem rejected_call_without_effect_oneArray :
    let m := (oneArray.steps.mapM (Op.answer (.ofDepth 1))).after (.ofProgram oneArray)
    let call := Dispatch.call (.ofDepth 1) (.ofEntry fillEntry ⟨none, "fill"⟩)
      [.ref (some ⟨0, 0⟩), .prim .long 7]
    m.Orderly [] ∧ (m.host.heap.cell? ⟨0, 0⟩).isSome ∧
      call.result m =
        .error (.argumentMismatch fillEntry.method 1 (.prim .int) (.prim .long)) ∧
      (call.after m).trace = m.trace ∧ (call.after m).host.heap = m.host.heap := by
  intro m call
  obtain ⟨horderly, hcalls⟩ := rejected_call_without_effect 1
  have ho : m.Orderly [] := horderly oneArray oneArray.steps
  have hfaults : (m.host.callFaults fillEntry [.ref (some ⟨0, 0⟩), .prim .long 7]).head? =
      some (.argumentMismatch fillEntry.method 1 (.prim .int) (.prim .long)) := by decide +kernel
  obtain ⟨hresult, -, htrace, -, hheap⟩ :=
    ((hcalls [] m ho).1 fillEntry ⟨none, "fill"⟩ _).rejected _ hfaults
  have hmoves : Moves [] (.ofProgram oneArray) [] m :=
    answers_carries (G := []) (Nested.lawful_ofDepth 1) oneArray.steps
      (Machine.orderly_ofProgram oneArray)
  have haccounts : m.Accounts [] ([] ++ []) :=
    (Machine.Accounts.ofProgram oneArray).moves hmoves (by decide +kernel)
  refine ⟨ho, by decide +kernel, hresult, htrace, hheap fun r => ?_⟩
  have hcount : m.host.heap.pinCount r = 0 := haccounts.tallied.heap.pinCount_eq r
  rw [hcount, Nat.zero_add]
  exact Nat.lt_of_le_of_lt List.count_le_length (by decide)

/-- An array that has as many pins as are counted. One more wraps, and a call that is refused leaves
none. -/
theorem rejected_call_loses_pins :
    let p := oneArray.pinning "a" mostPins
    let m := (p.steps.mapM (Op.answer (.ofDepth 1))).after (.ofProgram p)
    let call := Dispatch.call (.ofDepth 1) (.ofEntry fillEntry ⟨none, "fill"⟩)
      [.ref (some ⟨0, 0⟩), .prim .long 7]
    m.Orderly [] ∧ m.host.heap.pinCount ⟨0, 0⟩ = mostPins ∧
      call.result m =
        .error (.argumentMismatch fillEntry.method 1 (.prim .int) (.prim .long)) ∧
      (call.after m).host.heap.pinCount ⟨0, 0⟩ = 0 := by
  intro p m call
  refine ⟨Op.orderly_answers 1 p.steps (Machine.orderly_ofProgram p), ?_⟩
  unfold m p
  rw [oneArray.after_pinning (.ofDepth 1) "a" ⟨0, 0⟩ (by decide +kernel)
    (by decide +kernel) rfl le_rfl]
  exact ⟨by decide +kernel, by decide +kernel, by decide +kernel⟩

end AccelHost
