import AccelHost.Proofs.Settled

/-!
Calls and operations that keep a host settled: a call gives back what it pinned, and nothing gives
back an address.
-/
namespace AccelHost

open Holding

namespace Dispatch

open Work

variable {b : Bodies} {collects : Bool} {gs : List Guard} {m : Machine} {n : Nested}

theorem askProvider_keeps (hn : n.Collects) (e : Entry) (provider : CodeRef)
    (data : Option CodeRef) : Keeps b collects gs m (askProvider n e provider data) := by
  unfold askProvider
  split
  · exact .pure
  · refine .trace fun m => .host fun hs => ?_
    rw [hs.provider]
    unfold Bodies.providers
    cases b.provider provider with
    | none => exact ⟨hs, id⟩
    | some body => exact Keeps.body hn _ _ _ _ hs

theorem nativeFunc_keeps (hn : n.Collects) (e : Entry) :
    Keeps b collects gs m (nativeFunc n e) := by
  unfold nativeFunc
  split
  · exact .pure
  · refine .host ?_
    split
    · exact .pure
    · refine .bind (.holding fun m => askProvider_keeps hn _ _ _) fun _ _ => .host ?_
      exact .modifyHost (fun _ => rfl) fun _ => .pure

theorem lower_keeps (hn : n.Collects) (e : Entry) : Keeps b collects gs m (lower n e) := by
  unfold lower
  refine .host ?_
  split
  · exact .pure
  · refine .bind (nativeFunc_keeps hn e) fun func _ => ?_
    cases func <;> exact .pure

theorem runNative_keeps (hn : n.Collects) (func : CodeRef) (args : List NativeArg) :
    Keeps b collects gs m (runNative n func args) := by
  unfold runNative
  refine .trace fun m => .host fun hs => ?_
  rw [hs.native]
  unfold Bodies.natives
  cases b.native func with
  | none => exact ⟨hs, id⟩
  | some body => exact Keeps.body hn _ _ _ _ hs

theorem marshal_settled (p : CallPlan) (args : List Value) (hs : m.host.Settled b collects gs) :
    ({ m.host with heap := (p.marshal m.host.heap args).2.heap } : Host).Settled b collects
        ((p.marshal m.host.heap args).2.guards ++ gs) ∧
      m.host.Earlier { m.host with heap := (p.marshal m.host.heap args).2.heap } := by
  have hpins := p.pins_marshal m.host.heap args
  have hmoves : Moves [] m _ _ := .pins hpins
  exact Host.Settled.moves (F := gs) hs hmoves (by simp)

theorem unpinAll_settled {gs' : List Guard} (hs : m.host.Settled b collects (gs' ++ gs)) :
    ({ m.host with heap := m.host.heap.unpinAll gs' } : Host).Settled b collects gs ∧
      m.host.Earlier { m.host with heap := m.host.heap.unpinAll gs' } := by
  have hmoves : Moves (ofGuards gs' ++ []) m [] _ := .unpinAll gs'
  exact Host.Settled.moves (F := gs) (by simpa using hs) hmoves rfl

theorem call_keeps (hn : n.Collects) (p : CallPlan) (args : List Value) :
    Keeps b collects gs m (call n p args) := by
  unfold call
  refine .host ?_
  split
  · exact .pure
  · split
    · exact .pure
    · refine .host fun hs => ?_
      obtain ⟨hs₁, he₁⟩ := marshal_settled p args hs
      generalize p.marshal m.host.heap args = handed at hs₁ he₁ ⊢
      obtain ⟨error, s⟩ := handed
      have hback : ∀ (m : Machine) (result : Except DispatchError (Option Value)),
          m.host.Settled b collects (s.guards ++ gs) →
          let w : Work _ := do
            Work.modifyHost fun h => { h with heap := h.heap.unpinAll s.guards }
            pure result
          (w.after m).host.Settled b collects gs ∧ m.host.Earlier (w.after m).host :=
        fun m _ hs => unpinAll_settled hs
      cases error with
      | some e =>
        obtain ⟨hs₂, he₂⟩ := hback (m.withHost { m.host with heap := s.heap }) (.error e) hs₁
        exact ⟨hs₂, fun hr => he₁ (he₂ hr)⟩
      | none =>
        obtain ⟨hs₂, he₂⟩ := runNative_keeps hn p.func s.args
          (m := m.withHost { m.host with heap := s.heap }) hs₁
        obtain ⟨hs₃, he₃⟩ := hback _ (.error (.notReplaced p.entry.method)) hs₂
        exact ⟨hs₃, fun hr => he₁ (he₂ (he₃ hr))⟩

theorem compile_keeps (hn : n.Collects) (rs : Replacements) (method : Method) :
    Keeps b collects gs m (compile n rs method) := by
  refine .bind (.await _) fun _ m => ?_
  split
  · exact .pure
  · split
    · exact .pure
    · refine .holding fun m => .bind (lower_keeps hn _) fun p _ => ?_
      cases p with
      | error e => exact .pure
      | ok plan =>
        refine .modifyHost (fun h => ?_) fun _ => .pure
        obtain ⟨r, s, he⟩ := h.modifyReplacements_eq _
        rw [he]
        rfl

theorem compileEntry_keeps (hn : n.Collects) (e : Entry) :
    Keeps b collects gs m (compileEntry n e) := by
  unfold compileEntry
  refine .bind (lower_keeps hn e) fun p _ => ?_
  cases p with
  | error e => exact .pure
  | ok plan => exact .bind .fresh fun _ _ => .pure

theorem plan_keeps (hn : n.Collects) (rs : Replacements) (method : Method) (mode : CallMode) :
    Keeps b collects gs m (plan n rs method mode) := by
  cases mode with
  | interpreted =>
    unfold plan
    dsimp only
    split
    · exact .pure
    · exact lower_keeps hn _
  | compiled => exact .bind (compile_keeps hn rs method) fun _ _ => .pure

end Dispatch

namespace DispatchOp

open Work

variable {b : Bodies} {collects : Bool} {gs : List Guard} {m : Machine} {n : Nested}

theorem withReplacements_keeps {f : Replacements → Work Reply}
    (hf : ∀ rs, Keeps b collects gs m (f rs)) :
    Keeps b collects gs m (withReplacements f) := by
  unfold withReplacements
  refine .host ?_
  split
  · exact hf _
  · exact .pure

theorem withEntry_keeps {name : Label} {f : Entry → Work Reply}
    (hf : ∀ e, Keeps b collects gs m (f e)) : Keeps b collects gs m (withEntry name f) := by
  unfold withEntry
  refine .host ?_
  split
  · exact hf _
  · exact .pure

theorem calling_keeps {args : List Argument} {name : Option Label}
    {f : List Value → Work (Except DispatchError (Option Value))}
    (hf : ∀ values, Keeps b collects gs m (f values)) :
    Keeps b collects gs m (calling args name f) := by
  unfold calling
  refine .host ?_
  split
  · exact .pure
  · refine .bind (hf _) fun result _ => ?_
    cases result with
    | error e => exact .pure
    | ok result =>
      dsimp only
      split
      · exact .modifyHost (fun _ => rfl) fun _ => .pure
      · exact .pure

theorem keepCall_keeps (name : Option Label) (c : Except DispatchError CompiledCall) :
    Keeps b collects gs m (keepCall name c) := by
  cases c with
  | error e => exact .pure
  | ok c =>
    refine .host (.modifyHost_at (fun hs => hs.of_ground ?_) fun _ => .pure)
    cases name <;> rfl

theorem perform_keeps (hn : n.Collects) (op : DispatchOp) :
    Keeps b collects gs m (op.perform n) := by
  cases op with
  | entries | publishedUnits | find | isNative => exact withReplacements_keeps fun _ => .pure
  | compiledCount => exact withReplacements_keeps fun _ => .bind (.await _) fun _ _ => .pure
  | resolve method isStatic name =>
    refine withReplacements_keeps fun rs => ?_
    split
    · exact .pure
    · refine .host (.modifyHost_at (fun hs => hs.of_ground ?_) fun _ => .pure)
      cases name <;> rfl
  | compile method name =>
    exact withReplacements_keeps fun rs => .bind (Dispatch.compile_keeps hn rs method) fun _ _ =>
      keepCall_keeps _ _
  | invoke method mode args name =>
    refine withReplacements_keeps fun rs => calling_keeps fun values => ?_
    rw [Dispatch.invoke_eq]
    refine .bind (Dispatch.plan_keeps hn rs method mode) fun p _ => ?_
    cases p with
    | error e => exact .pure
    | ok p => exact Dispatch.call_keeps hn p values
  | entry spec name =>
    refine .bind .fresh fun serial _ => ?_
    split
    · exact .pure
    · exact .modifyHost (fun _ => rfl) fun _ => .host .pure
  | entryInfo name => exact withEntry_keeps fun _ => .host .pure
  | nativeFunc name =>
    exact withEntry_keeps fun e => .bind (Dispatch.nativeFunc_keeps hn e) fun _ _ => .pure
  | lower name =>
    refine withEntry_keeps fun e => .bind (Dispatch.lower_keeps hn e) fun p _ => ?_
    cases p <;> exact .pure
  | compileEntry name callName =>
    exact withEntry_keeps fun e => .bind (Dispatch.compileEntry_keeps hn e) fun _ _ =>
      keepCall_keeps _ _
  | invokeEntry name args result =>
    refine withEntry_keeps fun e => calling_keeps fun values => ?_
    unfold Dispatch.interpret
    refine .bind (Dispatch.lower_keeps hn e) fun p _ => ?_
    cases p with
    | error e => exact .pure
    | ok p => exact Dispatch.call_keeps hn p values
  | call name args result =>
    refine .host ?_
    split
    · exact calling_keeps fun values => Dispatch.call_keeps hn _ values
    · exact .pure

end DispatchOp

namespace Op

open Work

variable {b : Bodies} {collects : Bool} {gs : List Guard} {m : Machine} {n : Nested}

/-- Operations on the heap that go by reference, collections among them, and on entries. -/
def Managed : Op → Prop
  | .heap op => op.ByReference
  | .dispatch _ => True
  | _ => False

theorem answer_keeps (hn : n.Collects) {op : Op} (hop : op.Managed) :
    Keeps b collects gs m (op.answer n) := by
  refine .bind (.journaled fun m => ?_) fun _ _ => .pure
  cases op with
  | heap op => exact .heapOp op
  | dispatch op => exact op.perform_keeps hn
  | registry | units | env => exact hop.elim

theorem answers_keeps (hn : n.Collects) {ops : List Op} (hops : ∀ op ∈ ops, op.Managed) :
    Keeps b collects gs m (ops.mapM (Op.answer n)) := by
  induction ops generalizing m with
  | nil => exact .pure
  | cons op ops ih =>
    rw [List.mapM_cons]
    exact .bind (answer_keeps hn (hops op List.mem_cons_self)) fun _ _ =>
      .bind (ih fun o ho => hops o (List.mem_cons_of_mem _ ho)) fun _ _ => .pure

end Op

end AccelHost
