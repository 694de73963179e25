import AccelHost.Proofs.PairedCalls

/-!
Operations on the heap, on the bare registry and on entries, on two machines that do the same but
for modes.
-/
namespace AccelHost

open Holding

variable {n : Nested} {q : Prop} {G : List UnitHandle} {m m' : Machine}

/-! ### Entries -/

namespace Host.Twin

variable {h h' : Host}

theorem arguments (t : h.Twin q h') (args : List Argument) :
    h'.arguments args = h.arguments args := by
  induction args with
  | nil => rfl
  | cons a rest ih =>
    have ha : h'.argument a = h.argument a := t.same (·.argument a) fun _ _ _ _ _ _ => rfl
    simp only [Host.arguments, ha, ih]

theorem nameEntry (t : h.Twin q h') (e : Entry) (name : Option Label) :
    (h'.nameEntry e name).1 = (h.nameEntry e name).1 ∧
      (h.nameEntry e name).2.Twin q (h'.nameEntry e name).2 := by
  cases name with
  | none => exact ⟨rfl, t⟩
  | some name =>
    cases t with | mk hs hn hp hm hc hq => exact ⟨rfl, .mk hs hn hp hm hc hq⟩

theorem nameCall (t : h.Twin q h') (c : CompiledCall) (name : Option Label) :
    (h'.nameCall c name).1 = (h.nameCall c name).1 ∧
      (h.nameCall c name).2.Twin q (h'.nameCall c name).2 := by
  cases name with
  | none => exact ⟨rfl, t⟩
  | some name =>
    cases t with | mk hs hn hp hm hc hq => exact ⟨rfl, .mk hs hn hp hm hc hq⟩

end Host.Twin

namespace DispatchOp

theorem withReplacements_paired {f f' : Replacements → Work Reply} {R : Reply → Reply → Prop}
    (hnone : R (.error .noRuntime) (.error .noRuntime))
    (hf : ∀ s s', Dispatch.InUse m m' s s' → Paired q G m m' (f s) (f' s') R fun _ => G) :
    Paired q G m m' (withReplacements f) (withReplacements f') R fun _ => G := by
  refine .host fun ho t => ?_
  have hr := t.host.replacements? ho.host
  cases hs : m.host.replacements? with
  | none =>
    rw [hs] at hr
    generalize m'.host.replacements? = r' at hr ⊢
    cases hr
    exact .pure hnone
  | some s =>
    rw [hs] at hr
    cases hs' : m'.host.replacements? with
    | none => rw [hs'] at hr; cases hr
    | some s' =>
      rw [hs'] at hr
      cases hr with
      | some h => exact hf s s' ⟨hs, hs', h.1, h.2.1, h.2.2⟩

theorem withEntry_paired {name : Label} {f : Entry → Work Reply}
    (hf : ∀ e, Agree q G m m' (f e) (f e)) :
    Agree q G m m' (withEntry name f) (withEntry name f) := by
  refine .host fun _ t => ?_
  rw [t.host.same (·.entries) fun _ _ _ _ _ _ => rfl]
  cases m.host.entries.get? name with
  | none => exact .pure rfl
  | some e => exact hf e

theorem calling_paired {args : List Argument} {name : Option Label}
    {f f' : List Value → Work (Except DispatchError (Option Value))}
    (hf : ∀ values, Agree q G m m' (f values) (f' values)) :
    Agree q G m m' (calling args name f) (calling args name f') := by
  refine .host fun _ t => ?_
  rw [t.host.arguments]
  cases m.host.arguments args with
  | error e => exact .pure rfl
  | ok values =>
    refine .bind (hf values) fun result _ _ _ hr => ?_
    subst hr
    cases result with
    | error e => exact .pure rfl
    | ok result =>
      simp only
      split
      · refine .modifyHost (J := G) (fun ho => ho.of_same rfl { Host.Same.refl _ with } rfl)
          (fun t => ?_) fun _ _ => .pure rfl
        cases t with | mk hs hn hp hm hc hq => exact .mk hs hn hp hm hc hq
      · exact .pure rfl

theorem keepCall_paired (name : Option Label) (c : Except DispatchError CompiledCall) :
    Agree q G m m' (keepCall name c) (keepCall name c) := by
  refine .of_carries (X := []) (keepCall_carries name c) fun _ t => ?_
  cases c with
  | error e => exact ⟨rfl, t⟩
  | ok c =>
    obtain ⟨hsame, hhost⟩ := t.host.nameCall c name
    refine ⟨?_, t.withHost hhost⟩
    unfold keepCall
    simp only [Work.result_bind, Work.result_host, Work.result_pure, hsame]

theorem invoke_paired (hn : n.Fair q) (method : Method) (mode mode' : CallMode)
    (args : List Argument) (name : Option Label) :
    Agree q G m m' ((invoke method mode args name).perform n)
      ((invoke method mode' args name).perform n) :=
  withReplacements_paired rfl fun _ _ h => calling_paired fun values =>
    h.invoke_paired hn method mode mode' values

theorem resolve_paired (method : Method) (isStatic : Option Bool) (name : Option Label) :
    Agree q G m m' ((resolve method isStatic name).perform n)
      ((resolve method isStatic name).perform n) := by
  refine withReplacements_paired rfl fun s s' h => ?_
  have hresolve : Dispatch.resolve s' method isStatic = Dispatch.resolve s method isStatic := by
    rw [h.same]
    rfl
  rw [hresolve]
  cases Dispatch.resolve s method isStatic with
  | none => exact .pure rfl
  | some e =>
    refine .host fun ho t => ?_
    have hquiet := Moves.quietly (X := []) (Host.quiet_nameEntry m.host e name)
    have ho' := (hquiet.orderly ho).1
    obtain ⟨hname, hhost⟩ := t.host.nameEntry e name
    generalize m.host.nameEntry e name = x at hname hhost ho' ⊢
    generalize m'.host.nameEntry e name = x' at hname hhost ⊢
    obtain ⟨known, host⟩ := x
    obtain ⟨_, host'⟩ := x'
    cases hname
    have hview : host'.view = host.view := hhost.view
    refine .modifyHost_at (J := G) (fun _ => ho') (fun _ _ => hhost) fun _ _ => .pure ?_
    rw [hview]

/-- An operation on entries. Only what counts compiled calls may tell them apart. -/
theorem perform_paired (hn : n.Fair q) (op : DispatchOp) :
    Paired q G m m' (op.perform n) (op.perform n) (Op.dispatch op).Tells fun _ => G := by
  have same {w w' : Work Reply} (h : Agree q G m m' w w') :
      Paired q G m m' w w' (Op.dispatch op).Tells fun _ => G :=
    h.imp (fun a b hab => hab ▸ .same _ a) fun _ _ ho => ho
  cases op with
  | entries =>
    refine same (withReplacements_paired rfl fun s s' h => .host fun _ t => ?_)
    rw [h.same, t.host.view]
    exact .pure rfl
  | publishedUnits =>
    refine same (withReplacements_paired rfl fun s s' h => ?_)
    rw [h.same]
    exact .pure rfl
  | find method =>
    refine same (withReplacements_paired rfl fun s s' h => .host fun _ t => ?_)
    rw [h.same, t.host.view]
    exact .pure rfl
  | isNative name =>
    refine same (withReplacements_paired rfl fun s s' h => ?_)
    rw [h.same]
    exact .pure rfl
  | resolve method isStatic name => exact same (resolve_paired method isStatic name)
  | compile method name =>
    refine same (withReplacements_paired rfl fun s s' h => ?_)
    refine .bind (h.compile_paired hn method) fun c _ _ _ hc => ?_
    subst hc
    exact keepCall_paired name c
  | compiledCount =>
    refine withReplacements_paired (.same _ _) fun s s' _ => ?_
    exact .bind (Dispatch.compiledCount_paired s s') fun _ _ _ _ _ => .pure (.compiledCount _ _)
  | invoke method mode args name => exact same (invoke_paired hn method mode mode args name)
  | entry spec name =>
    refine same (.bind .fresh fun serial _ _ _ hs => ?_)
    subst hs
    cases spec.entry singleUnit serial with
    | error e => exact .pure rfl
    | ok e =>
      refine .modifyHost (J := G) (fun ho => ho.of_same rfl { Host.Same.refl _ with } rfl)
        (fun t => ?_) fun _ _ => .host fun _ t => ?_
      · cases t with | mk hs hn hp hm hc hq => exact .mk hs hn hp hm hc hq
      · rw [t.host.view]
        exact .pure rfl
  | entryInfo name =>
    refine same (withEntry_paired fun e => .host fun _ t => ?_)
    rw [t.host.view]
    exact .pure rfl
  | nativeFunc name =>
    refine same (withEntry_paired fun e => .bind (Dispatch.nativeFunc_paired hn e) ?_)
    exact fun func _ _ _ hf => .pure (by rw [hf])
  | lower name =>
    refine same (withEntry_paired fun e => .bind (Dispatch.lower_paired hn e) ?_)
    intro p _ _ _ hp
    subst hp
    cases p <;> exact .pure rfl
  | compileEntry name callName =>
    refine same (withEntry_paired fun e => .bind (Dispatch.compileEntry_paired hn e) ?_)
    intro c _ _ _ hc
    subst hc
    exact keepCall_paired callName c
  | invokeEntry name args result =>
    exact same (withEntry_paired fun e => calling_paired fun values =>
      Dispatch.interpret_paired hn e values)
  | call name args result =>
    refine same (.host fun _ t => ?_)
    rw [t.host.same (·.calls) fun _ _ _ _ _ _ => rfl]
    cases m.host.calls.get? name with
    | none => exact .pure rfl
    | some c => exact calling_paired fun values => Dispatch.call_paired hn c.plan values

end DispatchOp

/-! ### The bare registry -/

theorem Host.Twin.withBare {h h' : Host} (t : h.Twin q h') (bare : Registry) :
    ({ h with bare } : Host).Twin q { h' with bare } := by
  cases t with | mk hs hn hp hm hc hq => exact .mk hs hn hp hm hc hq

theorem Host.Twin.expose {h h' : Host} (t : h.Twin q h') (published : Registry) :
    (h.expose published).Twin q (h'.expose published) := by
  cases t with | mk hs hn hp hm hc hq => exact .mk hs hn hp hm hc hq

namespace RegistryOp

theorem declare_paired (text : String) : Agree q G m m' (declare text) (declare text) := by
  refine .of_carries (X := []) (declare_carries text) fun _ t => ?_
  have hbare : m'.host.bare = m.host.bare := t.host.same (·.bare) fun _ _ _ _ _ _ => rfl
  have hnext : m'.nextHandle = m.nextHandle := by cases t; rfl
  unfold declare
  cases UnitOption.parse text with
  | error fault => exact ⟨rfl, t⟩
  | ok option =>
    simp only [Work.result_bind, Work.after_bind, Work.result_host, Work.after_host,
      Work.result_get, Work.after_get, hbare, hnext]
    cases m.host.bare.register option m.nextHandle with
    | error e => exact ⟨rfl, t⟩
    | ok bare =>
      have hhost := t.host.withBare bare
      have htwin : ({ m with host := { m.host with bare }, nextHandle := m.nextHandle + 1 } :
          Machine).Twin q
            { m' with host := { m'.host with bare }, nextHandle := m'.nextHandle + 1 } := by
        cases t with | mk _ hw hs => exact .mk hhost hw hs
      simp only
      cases bare.unit? m.nextHandle <;> exact ⟨rfl, htwin⟩

theorem batch_paired (unit : String) (specs : List EntrySpec) :
    Agree q G m m' (batch unit specs) (batch unit specs) := by
  induction specs generalizing m m' with
  | nil => exact .pure rfl
  | cons s rest ih =>
    refine .bind .fresh fun serial _ _ _ hs => ?_
    subst hs
    cases s.entry unit serial with
    | error e => exact .pure rfl
    | ok e =>
      refine .bind ih fun es _ _ _ hes => ?_
      subst hes
      cases es <;> exact .pure rfl

theorem registerBatch_paired (choice : UnitChoice) (specs : List EntrySpec) :
    Agree q G m m' (registerBatch choice specs) (registerBatch choice specs) := by
  refine .host fun _ t => ?_
  rw [t.host.same (·.bare) fun _ _ _ _ _ _ => rfl]
  cases choose m.host.bare choice with
  | error e => exact .pure rfl
  | ok chosen =>
    obtain ⟨handle, name⟩ := chosen
    refine .bind (batch_paired name specs) fun es _ m m' hes => ?_
    subst hes
    cases es with
    | error e => exact .pure rfl
    | ok es =>
      refine .host fun ho t => ?_
      rw [t.host.same (·.bare) fun _ _ _ _ _ _ => rfl]
      cases hb : m.host.bare.registerEntries handle es with
      | error e => exact .pure rfl
      | ok bare =>
        have hm : Moves [] m [] (m.withHost { m.host with bare }) :=
          .bareEntries (Registry.extends_of_registerEntries hb)
        exact .modifyHost (fun _ => (hm.orderly ho).1) (fun t => t.withBare bare)
          fun _ _ => .pure rfl

theorem perform_paired (op : RegistryOp) : Agree q G m m' op.perform op.perform := by
  cases op with
  | register option => exact declare_paired option
  | registerEntries choice specs => exact registerBatch_paired choice specs
  | units =>
    refine .host fun _ t => ?_
    rw [t.host.same (·.bare) fun _ _ _ _ _ _ => rfl]
    exact .pure rfl
  | find method =>
    refine .host fun _ t => ?_
    rw [t.host.same (·.bare) fun _ _ _ _ _ _ => rfl, t.host.view]
    exact .pure rfl
  | snapshot empty =>
    refine .of_carries (X := []) (perform_carries (.snapshot empty)) fun _ t => ⟨rfl, ?_⟩
    have hbare : m'.host.bare = m.host.bare := t.host.same (·.bare) fun _ _ _ _ _ _ => rfl
    have htwin := t.withHost (t.host.expose (if empty then {} else m.host.bare))
    rw [← hbare] at htwin
    nth_rewrite 1 [hbare] at htwin
    exact htwin

end RegistryOp

/-! ### The heap -/

namespace Host

variable {q : Prop} {h h' : Host}

def Replied {α : Type} (q : Prop) (x y : α × Host) : Prop := y.1 = x.1 ∧ x.2.Twin q y.2

namespace Twin

theorem withHeap (t : h.Twin q h') (heap : Heap) :
    ({ h with heap } : Host).Twin q { h' with heap } := by
  cases t with | mk hs hn hp hm hc hq => exact .mk hs hn hp hm hc hq

theorem allocate (t : h.Twin q h') (name : Label) (bytes : Nat) (new : Nat → ObjRef × Heap) :
    Replied q (h.allocate name bytes new) (h'.allocate name bytes new) := by
  cases t with | mk hs hn hp hm hc hq => exact ⟨rfl, .mk hs hn hp hm hc hq⟩

theorem withObject (t : h.Twin q h') {obj : Label}
    {f f' : ObjRef → Except DispatchError (Outcome × Host)}
    (hf : ∀ r, ExceptRel (Replied q) (f r) (f' r)) :
    Replied q (h.withObject obj f) (h'.withObject obj f') := by
  unfold Host.withObject
  rw [t.same (·.objects) fun _ _ _ _ _ _ => rfl]
  cases h.objects.get? obj with
  | none => exact ⟨rfl, t⟩
  | some r =>
    have hr := hf r
    simp only
    generalize f r = x at hr ⊢
    generalize f' r = y at hr ⊢
    cases hr with
    | error e => exact ⟨rfl, t⟩
    | ok h => exact ⟨congrArg Except.ok h.1, h.2⟩

theorem askObject (t : h.Twin q h') {obj : Label} {f f' : ObjRef → Except DispatchError Outcome}
    (hf : f' = f) : Replied q (h.askObject obj f) (h'.askObject obj f') := by
  subst hf
  refine t.withObject fun r => ?_
  cases f' r with
  | error e => exact .error e
  | ok outcome => exact .ok ⟨rfl, t⟩

theorem changeObject (t : h.Twin q h') {obj : Label} {f f' : ObjRef → Except DispatchError Heap}
    (hf : f' = f) : Replied q (h.changeObject obj f) (h'.changeObject obj f') := by
  subst hf
  refine t.withObject fun r => ?_
  cases f' r with
  | error e => exact .error e
  | ok heap => exact .ok ⟨rfl, t.withHeap heap⟩

theorem withGuards (t : h.Twin q h') (guards : Keyed Label Guard) :
    ({ h with guards } : Host).Twin q { h' with guards } := by
  cases t with | mk hs hn hp hm hc hq => exact .mk hs hn hp hm hc hq

theorem withMark (t : h.Twin q h') (obj : Label) (a : Nat) :
    ({ h with marks := h.marks.set obj a } : Host).Twin q
      { h' with marks := h'.marks.set obj a } := by
  cases t with | mk hs hn hp hm hc hq => exact .mk hs hn hp hm hc hq

theorem unpin (t : h.Twin q h') (g : Guard) : (h.unpin g).Twin q (h'.unpin g) := by
  have hheap : h'.heap = h.heap := t.same (·.heap) fun _ _ _ _ _ _ => rfl
  unfold Host.unpin
  rw [hheap]
  exact t.withHeap _

theorem keepGuard (t : h.Twin q h') (name : Label) (g : Guard) :
    (h.keepGuard name g).Twin q (h'.keepGuard name g) := by
  have hguards : h'.guards = h.guards := t.same (·.guards) fun _ _ _ _ _ _ => rfl
  have hset := t.withGuards (h.guards.set name g)
  unfold Host.keepGuard
  simp only [hguards]
  cases h.guards.get? name with
  | none => exact hset
  | some before => exact hset.unpin before

theorem relocate (t : h.Twin q h') : Replied q h.relocate h'.relocate := by
  cases t with | mk hs hn hp hm hc hq => exact ⟨rfl, .mk hs hn hp hm hc hq⟩

end Twin

end Host

namespace HeapOp

theorem perform_replied {h h' : Host} (t : h.Twin q h') (op : HeapOp) :
    Host.Replied q (op.perform h) (op.perform h') := by
  have hheap : h'.heap = h.heap := t.same (·.heap) fun _ _ _ _ _ _ => rfl
  have hguards : h'.guards = h.guards := t.same (·.guards) fun _ _ _ _ _ _ => rfl
  cases op with
  | newObject | newArray | newArrayFrom =>
    unfold perform
    simp only [hheap]
    exact t.allocate _ _ _
  | foreign r name =>
    cases t with | mk hs hn hp hm hc hq => exact ⟨rfl, .mk hs hn hp hm hc hq⟩
  | free | write | writeField =>
    unfold perform
    simp only [hheap]
    exact t.changeObject rfl
  | kind | arrayLength | read | readField | resolveObject | isPinned | display =>
    unfold perform
    simp only [hheap]
    exact t.askObject rfl
  | resolveAddress a => exact ⟨by simp [perform, hheap], t⟩
  | mark obj =>
    have haddress (r : ObjRef) : h'.heap.address r = h.heap.address r := by rw [hheap]
    unfold perform
    simp only [haddress]
    refine t.withObject fun r => ?_
    cases h.heap.address r with
    | error e => exact .error e
    | ok a => exact .ok ⟨rfl, t.withMark obj a⟩
  | pin obj name =>
    unfold perform
    simp only [hheap]
    refine t.withObject fun r => ?_
    cases h.heap.pin r with
    | error e => exact .error e
    | ok pinned => exact .ok ⟨rfl, (t.withHeap pinned.2).keepGuard name pinned.1⟩
  | unpin name =>
    have hset := t.withGuards (h.guards.erase name)
    unfold perform
    simp only [hguards]
    cases h.guards.get? name with
    | none => exact ⟨rfl, t⟩
    | some g => exact ⟨rfl, hset.unpin g⟩
  | relocate => exact t.relocate
  | size => exact ⟨by simp [perform, hheap], t⟩

theorem perform_paired (op : HeapOp) :
    Agree q G m m' ((Op.heap op).perform n) ((Op.heap op).perform n) := by
  refine .host fun _ t => ?_
  obtain ⟨hreply, hhost⟩ := perform_replied t.host op
  refine .modifyHost_at (J := G) (fun ho => ?_) (fun _ _ => hhost) fun _ _ => .pure hreply.symm
  exact ((Moves.heapOp (X := []) op).orderly ho).1

end HeapOp

end AccelHost
