import AccelHost.Proofs.AbreastCalls

/-!
Operations on two machines that are the same but for places. An answer is the same, but for the
place that a guard tells; a collection moves the same cells.
-/
namespace AccelHost

/-! ### Collections -/

namespace Host

variable {h h' : Host}

/-- A named object stays where it is in a collection if it is pinned, and only then. -/
theorem stayed_relocate (hl : h.heap.Laid h.addressLimit) :
    h.stayed h.heap (h.heap.relocate (h.allocator.place h.heap h.addressLimit)).2 =
      (h.objects.filterMap fun (name, r) => if h.heap.isPinned r then some name else none).mergeSort
        fun a b => a ≤ b := by
  unfold stayed
  refine congrArg (List.mergeSort · fun a b => decide (a ≤ b)) (List.filterMap_congr fun e _ => ?_)
  obtain ⟨name, r⟩ := e
  dsimp only
  unfold Heap.address Heap.get Heap.isPinned
  rw [Heap.cell?_relocate]
  cases hc : h.heap.cell? r with
  | none => rfl
  | some c =>
    have hcell := (Heap.cell?_iff_cellAt.1 hc).2
    by_cases hp : c.pins = 0
    · have hne := (hl.clears h.allocator).base_ne hcell hp (hl.below _ c hcell).1
      simp [Heap.movedCell, hp, Except.map, hne.symm]
    · simp [Heap.movedCell, hp, Except.map, UInt32.pos_iff_ne_zero]

theorem unplaced_relocate (h : Host) : h.relocate.2.unplaced = h.unplaced :=
  Host.unplaced_heap (h := h) rfl Heap.elsewhere_relocate

theorem relocate_reply (hl : h.heap.Laid h.addressLimit) (hl' : h'.heap.Laid h'.addressLimit)
    (he : h'.unplaced = h.unplaced) : h'.relocate.1 = h.relocate.1 := by
  have hheap : h.heap.Elsewhere h'.heap := congrArg Host.heap he
  have hpinned : h'.heap.isPinned = h.heap.isPinned := funext fun r =>
    Heap.Elsewhere.same (f := (·.isPinned r)) (fun _ => Heap.isPinned_unplaced) hheap
  have hobjects : h'.objects = h.objects := Host.same (f := Host.objects) (fun _ => rfl) he
  unfold relocate
  simp only
  rw [stayed_relocate hl, stayed_relocate hl', hheap.moved, hpinned, hobjects]

end Host

/-- An operation on the heap by reference comes to the same, but for places. -/
theorem HeapOp.abreast {b : Bodies} {gs gs' : List Guard} {m m' : Machine} {n : Nested}
    {op : HeapOp} (hop : op.ByReference) :
    Abreast b gs gs' m m' ((Op.heap op).perform n) ((Op.heap op).perform n)
      fun x y => y.unplaced = x.unplaced := fun hb => by
  have hanswer : unplacedAnswer (op.perform m'.host) = unplacedAnswer (op.perform m.host) := by
    by_cases hne : op = .relocate
    · subst hne
      have hreply := Host.relocate_reply hb.left.laid hb.right.laid hb.host
      have hhost : m'.host.relocate.2.unplaced = m.host.relocate.2.unplaced := by
        rw [Host.unplaced_relocate, Host.unplaced_relocate, hb.host]
      exact Prod.ext (congrArg Reply.unplaced hreply) hhost
    · rw [← perform_unplaced hop hne m'.host, hb.host, perform_unplaced hop hne m.host]
  obtain ⟨hreply, hhost⟩ := Prod.mk.inj hanswer
  exact ⟨hreply, hb.withHost hhost (hb.left.heapOp op).1 (hb.right.heapOp op).1⟩

/-! ### Entries -/

namespace Host

theorem argument_unplaced (h : Host) (a : Argument) : h.unplaced.argument a = h.argument a := by
  cases a <;> rfl

theorem arguments_unplaced (h : Host) (args : List Argument) :
    h.unplaced.arguments args = h.arguments args := by
  induction args with
  | nil => rfl
  | cons a rest ih =>
    unfold arguments
    rw [argument_unplaced, ih]

theorem arguments_congr {h h' : Host} (args : List Argument) (he : h'.unplaced = h.unplaced) :
    h'.arguments args = h.arguments args :=
  same (f := fun h => h.arguments args) (fun h => h.arguments_unplaced args) he

theorem nameEntry_congr {h h' : Host} (e : Entry) (name : Option Label)
    (he : h'.unplaced = h.unplaced) : (h'.nameEntry e name).1 = (h.nameEntry e name).1 ∧
      (h'.nameEntry e name).2.unplaced = (h.nameEntry e name).2.unplaced := by
  refine ⟨same (f := fun h => (h.nameEntry e name).1) (fun _ => ?_) he,
    unplaced_congr (g := fun h => (h.nameEntry e name).2) (fun _ => ?_) he⟩ <;> cases name <;> rfl

theorem nameCall_congr {h h' : Host} (c : CompiledCall) (name : Option Label)
    (he : h'.unplaced = h.unplaced) : (h'.nameCall c name).1 = (h.nameCall c name).1 ∧
      (h'.nameCall c name).2.unplaced = (h.nameCall c name).2.unplaced := by
  refine ⟨same (f := fun h => (h.nameCall c name).1) (fun _ => ?_) he,
    unplaced_congr (g := fun h => (h.nameCall c name).2) (fun _ => ?_) he⟩ <;> cases name <;> rfl

end Host

namespace DispatchOp

variable {b : Bodies} {gs gs' : List Guard} {m m' : Machine} {n : Nested}

theorem withReplacements_abreast {f : Replacements → Work Reply}
    (hf : ∀ rs, m.host.replacements? = some rs → Even b gs gs' m m' (f rs) (f rs)) :
    Even b gs gs' m m' (withReplacements f) (withReplacements f) := by
  unfold withReplacements
  refine .host fun he => ?_
  rw [Host.same (f := Host.replacements?) (fun _ => rfl) he]
  cases hrs : m.host.replacements? with
  | some rs => exact hf rs hrs
  | none => exact .pure rfl

theorem withEntry_abreast {name : Label} {f : Entry → Work Reply}
    (hf : ∀ e, m.host.entries.get? name = some e → Even b gs gs' m m' (f e) (f e)) :
    Even b gs gs' m m' (withEntry name f) (withEntry name f) := by
  unfold withEntry
  refine .host fun he => ?_
  rw [Host.same (f := Host.entries) (fun _ => rfl) he]
  cases hname : m.host.entries.get? name with
  | some e => exact hf e hname
  | none => exact .pure rfl

theorem keepCall_abreast (name : Option Label) (c : Except DispatchError CompiledCall) :
    Even b gs gs' m m' (keepCall name c) (keepCall name c) := by
  cases c with
  | error e => exact .pure rfl
  | ok c =>
    refine .host fun he => ?_
    obtain ⟨hsame, hhost⟩ := Host.nameCall_congr c name he
    dsimp only
    rw [hsame]
    refine .modifyHost (fun _ => hhost) ?_ ?_ fun _ _ => .pure rfl
    · cases name <;> rfl
    · cases name <;> rfl

theorem calling_abreast {args : List Argument} {name : Option Label}
    {f : List Value → Work (Except DispatchError (Option Value))}
    (hf : ∀ values, m.host.arguments args = .ok values →
      Even b gs gs' m m' (f values) (f values)) :
    Even b gs gs' m m' (calling args name f) (calling args name f) := by
  unfold calling
  refine .host fun he => ?_
  rw [Host.arguments_congr args he]
  cases hargs : m.host.arguments args with
  | error e => exact .pure rfl
  | ok values =>
    refine .bind_same (hf values hargs) fun result _ _ => ?_
    cases result with
    | error e => exact .pure rfl
    | ok result =>
      dsimp only
      split
      · exact .modifyHost_same (fun _ => rfl) (fun _ => rfl) fun _ _ => .pure rfl
      · exact .pure rfl

theorem roomy_of_calling {args : List Argument} {name : Option Label} {values : List Value}
    {f : List Value → Work (Except DispatchError (Option Value))}
    (hargs : m.host.arguments args = .ok values)
    (hr : ((calling args name f).after m).host.Roomy) : ((f values).after m).host.Roomy := by
  unfold calling at hr
  simp only [Work.after_bind, Work.result_host, Work.after_host, hargs] at hr
  cases hf : (f values).result m with
  | error e => simpa only [hf, Work.after_pure] using hr
  | ok result =>
    simp only [hf] at hr
    split at hr
    · exact ⟨hr.room, hr.unwrapped⟩
    · exact hr

theorem roomy_of_withReplacements {f : Replacements → Work Reply} {rs : Replacements}
    (hrs : m.host.replacements? = some rs)
    (hr : ((withReplacements f).after m).host.Roomy) : ((f rs).after m).host.Roomy := by
  simpa only [withReplacements, Work.after_bind, Work.result_host, Work.after_host, hrs] using hr

theorem roomy_of_withEntry {f : Entry → Work Reply} {name : Label} {e : Entry}
    (hname : m.host.entries.get? name = some e)
    (hr : ((withEntry name f).after m).host.Roomy) : ((f e).after m).host.Roomy := by
  simpa only [withEntry, Work.after_bind, Work.result_host, Work.after_host, hname] using hr

theorem calling_planned_abreast (hn : n.Collects) {args : List Argument} {name : Option Label}
    {plan : Work (Except DispatchError CallPlan)} (hplan : Even b gs gs' m m' plan plan)
    (hc : ∀ values p, m.host.arguments args = .ok values → plan.result m = .ok p →
      p.Confined b (plan.after m) values)
    (hr : ((calling args name (Dispatch.callPlanned n plan)).after m).host.Roomy)
    (hr' : ((calling args name (Dispatch.callPlanned n plan)).after m').host.Roomy) :
    Even b gs gs' m m' (calling args name (Dispatch.callPlanned n plan))
      (calling args name (Dispatch.callPlanned n plan)) := by
  refine .of fun hb => calling_abreast fun values hvalues => ?_
  have hvalues' : m'.host.arguments args = .ok values :=
    (Host.arguments_congr args hb.host).trans hvalues
  exact Dispatch.callPlanned_abreast hn hplan (fun p hp => hc values p hvalues hp)
    (roomy_of_calling hvalues hr) (roomy_of_calling hvalues' hr')

/-- An operation on entries comes to the same, if the call that it may make is confined and there is
room in the end. -/
theorem perform_abreast (hn : n.Collects) (hblind : b.Blind) (op : DispatchOp)
    (hc : ∀ p values m₁, op.Calls n m p values m₁ → p.Confined b m₁ values)
    (hr : ((op.perform n).after m).host.Roomy) (hr' : ((op.perform n).after m').host.Roomy) :
    Even b gs gs' m m' (op.perform n) (op.perform n) := by
  have hview : ∀ {h h' : Host}, h'.unplaced = h.unplaced → h'.view = h.view :=
    Host.same (f := Host.view) fun _ => rfl
  cases op with
  | entries | find =>
    refine withReplacements_abreast fun rs _ => .host fun he => ?_
    rw [hview he]
    exact .pure rfl
  | publishedUnits | isNative => exact withReplacements_abreast fun rs _ => .pure rfl
  | compiledCount =>
    exact withReplacements_abreast fun rs _ =>
      .bind_same (.bind_same (.await _) fun _ _ _ => .pure rfl) fun _ _ _ => .pure rfl
  | resolve method isStatic name =>
    refine withReplacements_abreast fun rs _ => ?_
    split
    · exact .pure rfl
    · rename_i e _
      refine .host fun he => ?_
      obtain ⟨hsame, hhost⟩ := Host.nameEntry_congr e name he
      dsimp only
      refine .modifyHost (fun _ => hhost) ?_ ?_ fun _ _ => .pure ?_
      · cases name <;> rfl
      · cases name <;> rfl
      · rw [hsame, hview hhost]
  | compile method name =>
    refine withReplacements_abreast fun rs _ => ?_
    refine .bind_same (Dispatch.compile_abreast hn hblind rs method) fun c _ _ => ?_
    exact keepCall_abreast name c
  | invoke method mode args name =>
    refine withReplacements_abreast fun rs hrs => .of fun hb => ?_
    have hrs' : m'.host.replacements? = some rs :=
      (Host.same (f := Host.replacements?) (fun _ => rfl) hb.host).trans hrs
    have hinvoke : Dispatch.invoke n rs method mode =
        Dispatch.callPlanned n (Dispatch.plan n rs method mode) :=
      funext fun values => Dispatch.invoke_eq n rs method mode values
    have hroom := roomy_of_withReplacements hrs hr
    have hroom' := roomy_of_withReplacements hrs' hr'
    rw [hinvoke] at hroom hroom' ⊢
    exact calling_planned_abreast hn (Dispatch.plan_abreast hn hblind rs method mode)
      (fun values p hvalues hp => hc p values _ (.invoke hrs hvalues hp)) hroom hroom'
  | entry spec name =>
    refine .bind_same .fresh fun serial _ _ => ?_
    split
    · exact .pure rfl
    · refine .modifyHost_same (fun _ => rfl) (fun _ => rfl) fun _ _ => .host fun he => ?_
      rw [hview he]
      exact .pure rfl
  | entryInfo name =>
    refine withEntry_abreast fun e _ => .host fun he => ?_
    rw [hview he]
    exact .pure rfl
  | nativeFunc name =>
    refine withEntry_abreast fun e _ => ?_
    refine .bind_same (Dispatch.nativeFunc_abreast hn hblind e) fun func _ _ => ?_
    exact .pure rfl
  | lower name =>
    refine withEntry_abreast fun e _ => ?_
    refine .bind_same (Dispatch.lower_abreast hn hblind e) fun p _ _ => ?_
    cases p <;> exact .pure rfl
  | compileEntry name callName =>
    refine withEntry_abreast fun e _ => ?_
    refine .bind_same (Dispatch.compileEntry_abreast hn hblind e) fun c _ _ => ?_
    exact keepCall_abreast callName c
  | invokeEntry name args result =>
    refine withEntry_abreast fun e he => .of fun hb => ?_
    have he' : m'.host.entries.get? name = some e := by
      rw [Host.same (f := Host.entries) (fun _ => rfl) hb.host, he]
    exact calling_planned_abreast hn (Dispatch.lower_abreast hn hblind e)
      (fun values p hvalues hp => hc p values _ (.invokeEntry he hvalues hp))
      (roomy_of_withEntry he hr) (roomy_of_withEntry he' hr')
  | call name args result =>
    refine .of fun hb => .host fun he => ?_
    have hcalls : m'.host.calls = m.host.calls := Host.same (f := Host.calls) (fun _ => rfl) he
    simp only [perform, Work.after_bind, Work.result_host, Work.after_host] at hr hr'
    rw [hcalls] at hr' ⊢
    cases hcall : m.host.calls.get? name with
    | none => exact .pure rfl
    | some c =>
      rw [hcall] at hr hr'
      refine calling_abreast fun values hvalues => ?_
      have hvalues' : m'.host.arguments args = .ok values :=
        (Host.arguments_congr args hb.host).trans hvalues
      exact Dispatch.call_abreast hn (hc c.plan values m (.call hcall hvalues))
        (roomy_of_calling hvalues hr) (roomy_of_calling hvalues' hr')

end DispatchOp

end AccelHost
