import AccelHost.Proofs.Retained

/-!
Providers. Before a call the native function of its entry is looked for, and a provider may be
asked. What a provider is given is no heap: it may make requests of its host, write into the journal
and run programs, each on a host of its own. The heap of the machine at work is not touched by any
of these.
-/
namespace AccelHost

/-- Foreign code that asks for nothing from the heap: requests of hooks, events of the journal, and
programs on hosts of their own. -/
inductive Behaviour.Heapless {α : Type} : Behaviour α → Prop where
  | done (a : α) : Heapless (.done a)
  | call {c : Callback} {next : ActionReply → Behaviour α} :
    (∀ reply, Heapless (next reply)) → Heapless (.ask (.call c) next)
  | note {e : Event} {next : ActionReply → Behaviour α} :
    (∀ reply, Heapless (next reply)) → Heapless (.ask (.note e) next)
  | run {p : Program} {next : ActionReply → Behaviour α} :
    (∀ reply, Heapless (next reply)) → Heapless (.ask (.run p) next)

/-- An entry whose provider, if it is to be asked, gets no heap. -/
def Entry.AsksHeapless (e : Entry) (h : Host) : Prop :=
  ∀ provider data code, e.target = .provided provider data → h.provider provider = some code →
    (code e.nativeName data).Heapless

variable {G : List UnitHandle} {m : Machine}

theorem Work.heap_callback (c : Callback) :
    ((Work.callback c).after m).host.heap = m.host.heap := by
  have hanswered (m : Machine) : ((Work.answered c).after m).host.heap = m.host.heap := by
    unfold Work.answered
    rw [Work.after_bind, Work.result_get, Work.after_get]
    split
    · rename_i reply host waiting hc
      cases waited_of_answerInnermost hc with | cons hh _ => exact hh.heap_eq
    · rfl
  unfold Work.callback
  split
  · exact hanswered _
  · exact hanswered m

theorem Nested.heap_run (d : Nat) (p : Program) (ho : m.Orderly G) :
    (((ofDepth d).run p).after m).host.heap = m.host.heap := by
  cases d with
  | zero => rfl
  | succ d =>
    have hmoves : Moves [] (m.enter p) [] ((runSteps (ofDepth d) p.steps).after (m.enter p)) :=
      runSteps_carries (lawful_ofDepth d) p.steps (ho.enter p)
    exact hmoves.around.waited_leave.1.heap_eq

/-- Code that asks for nothing from the heap leaves it as it is. -/
theorem Behaviour.Heapless.heap_runCode {α : Type} {code : Behaviour α} (hc : code.Heapless)
    (d : Nat) (ho : m.Orderly G) :
    (((Nested.ofDepth d).runCode code).after m).host.heap = m.host.heap := by
  induction hc generalizing m with
  | done a => rfl
  | @call c next _ ih =>
    have hm : Moves [] m [] ((Work.callback c).after m) := Carries.callback c ho
    exact (ih _ (hm.orderly ho).1).trans (Work.heap_callback c)
  | @note e next _ ih =>
    have hm : Moves [] m [] ((Work.note e).after m) := Carries.note e ho
    exact ih _ (hm.orderly ho).1
  | @run p next _ ih =>
    have hm : Moves [] m [] (((Nested.ofDepth d).run p).after m) :=
      (Nested.lawful_ofDepth d).run p G [] m ho
    exact (ih _ (hm.orderly ho).1).trans (Nested.heap_run d p ho)

namespace Dispatch

variable {n : Nested} {e : Entry}

/-- The machine at which the function of an entry is known: its provider was asked, if its unit is
there and no answer is known yet. -/
def asked (n : Nested) (e : Entry) (m : Machine) : Machine :=
  if m.host.isLoaded e then (nativeFunc n e).after m else m

/-- Lowering an entry does no more than to look for its native function. -/
theorem after_lower : (lower n e).after m = asked n e m := by
  unfold lower asked
  rw [Work.after_bind, Work.result_host, Work.after_host]
  cases m.host.isLoaded e with
  | false => rfl
  | true =>
    rw [Bool.not_true, if_neg Bool.false_ne_true, if_pos rfl, Work.after_bind]
    cases (nativeFunc n e).result m <;> rfl

theorem result_lower : (lower n e).result m =
    if m.host.isLoaded e then
      match (nativeFunc n e).result m with
      | some func => .ok (.ofEntry e func)
      | none => .error (.nativeUnavailable e.method e.nativeName)
    else .error (.unitUnloaded e.method e.unit) := by
  unfold lower
  rw [Work.result_bind, Work.result_host, Work.after_host]
  cases m.host.isLoaded e with
  | false => rfl
  | true =>
    rw [Bool.not_true, if_neg Bool.false_ne_true, if_pos rfl, Work.result_bind]
    cases (nativeFunc n e).result m <;> rfl

theorem call_of_unloaded {p : CallPlan} (n : Nested) (args : List Value)
    (hl : m.host.isLoaded p.entry = false) :
    (call n p args).result m = .error (.unitUnloaded p.entry.method p.entry.unit) ∧
      (call n p args).after m = m := by
  simp only [call, Work.result_bind, Work.after_bind, Work.result_host, Work.after_host, hl,
    Bool.not_false, ↓reduceIte, Work.result_pure, Work.after_pure, and_self]

theorem orderly_asked (hn : n.Lawful) (e : Entry) (ho : m.Orderly G) : (asked n e m).Orderly G := by
  have hm : Moves [] m [] ((lower n e).after m) := lower_carries hn e ho
  rw [after_lower] at hm
  exact (hm.orderly ho).1

theorem trace_askProvider (hn : n.Lawful) {provider : CodeRef} (data : Option CodeRef)
    (ho : m.Orderly G) (hname : '\x00' ∉ e.nativeName.toList) :
    ∃ events, ((askProvider n e provider data).after m).trace =
      m.trace ++ .asked e.id provider e.nativeName data :: events := by
  have htold : Moves [] m [] { m with
      trace := m.trace ++ [.asked e.id provider e.nativeName data] } :=
    .event fun _ hx => by cases hx
  have ho₁ := (htold.orderly ho).1
  unfold askProvider
  have hcontains : e.nativeName.toList.contains '\x00' = false := by simpa using hname
  simp only [hcontains, Bool.false_eq_true, ↓reduceIte, Work.after_bind, Work.after_trace,
    Work.result_host, Work.after_host]
  cases m.host.provider provider with
  | none => exact ⟨[], rfl⟩
  | some code =>
    have hrun := hn.runCode (X := []) (code e.nativeName data) ho₁
    obtain ⟨events, hevents, -⟩ := (hrun.orderly ho₁).2.trace
    refine ⟨events, hevents.trans ?_⟩
    rw [List.append_assoc, List.singleton_append]

theorem heap_askProvider (d : Nat) (ho : m.Orderly G) {provider : CodeRef} (data : Option CodeRef)
    (he : ∀ code, m.host.provider provider = some code → (code e.nativeName data).Heapless) :
    ((askProvider (.ofDepth d) e provider data).after m).host.heap = m.host.heap := by
  unfold askProvider
  split
  · rfl
  · have htold : Moves [] m [] { m with
        trace := m.trace ++ [.asked e.id provider e.nativeName data] } :=
      .event fun _ hx => by cases hx
    simp only [Work.after_bind, Work.after_trace, Work.result_host, Work.after_host]
    cases hcode : m.host.provider provider with
    | none => rfl
    | some code => exact (he code hcode).heap_runCode d (htold.orderly ho).1

theorem heap_asked (d : Nat) (ho : m.Orderly G) (he : e.AsksHeapless m.host) :
    (asked (.ofDepth d) e m).host.heap = m.host.heap := by
  unfold asked
  split
  · unfold nativeFunc
    cases ht : e.target with
    | direct code => rfl
    | provided provider data =>
      rw [Work.after_bind, Work.result_host, Work.after_host]
      cases m.host.provided.get? e.id with
      | some answer => rfl
      | none =>
        have hheld : (m.hold (.answer e.id)).Orderly G :=
          ho.of_same rfl { Host.Same.refl _ with } rfl
        have hheap := heap_askProvider d hheld data
          fun code hcode => he provider data code ht hcode
        simp only [Work.after_bind, Work.after_host, Work.after_modifyHost, Work.after_pure,
          Work.after_holding]
        exact hheap
  · rfl

end Dispatch

end AccelHost
