import AccelHost.Proofs.Abreast
import AccelHost.Proofs.RejectedCalls

/-!
Calls on two machines that are the same but for places. Plans are lowered to the same, arguments are
handed over alike, and what native code comes to stands for the same value.
-/
namespace AccelHost

namespace Dispatch

variable {b : Bodies} {gs gs' : List Guard} {m m' : Machine} {n : Nested}

theorem askProvider_abreast (hn : n.Collects) (hblind : b.Blind) (e : Entry) (provider : CodeRef)
    (data : Option CodeRef) :
    Even b gs gs' m m' (askProvider n e provider data) (askProvider n e provider data) := by
  unfold askProvider
  split
  · exact .pure rfl
  · refine .trace fun m m' => .of fun hb => .host fun _ => ?_
    rw [hb.left.provider, hb.right.provider]
    unfold Bodies.providers
    cases hp : b.provider provider with
    | none => exact .pure rfl
    | some body =>
      obtain ⟨r, hr, hr', _, hb'⟩ := Body.abreast hn (body e.nativeName data) .nil
        (hblind _ _ hp _ _ _) hb fun hne => absurd rfl hne
      exact fun _ => ⟨hr.trans hr'.symm, hb'⟩

theorem nativeFunc_abreast (hn : n.Collects) (hblind : b.Blind) (e : Entry) :
    Even b gs gs' m m' (nativeFunc n e) (nativeFunc n e) := by
  have hprovided : ∀ {m m' : Machine}, m'.host.unplaced = m.host.unplaced →
      m'.host.provided = m.host.provided := Host.same fun _ => rfl
  unfold nativeFunc
  split
  · exact .pure rfl
  · refine .host fun he => ?_
    rw [hprovided he]
    split
    · exact .pure rfl
    · refine .bind_same (.holding (askProvider_abreast hn hblind e _ _)) fun answer m m' => ?_
      refine .host fun he => ?_
      rw [hprovided he]
      exact .modifyHost_same (fun _ => rfl) (fun _ => rfl) fun _ _ => .pure rfl

theorem lower_abreast (hn : n.Collects) (hblind : b.Blind) (e : Entry) :
    Even b gs gs' m m' (lower n e) (lower n e) := by
  unfold lower
  refine .host fun he => ?_
  rw [Host.same (f := fun h => h.isLoaded e) (fun _ => rfl) he]
  split
  · exact .pure rfl
  · refine .bind_same (nativeFunc_abreast hn hblind e) fun func _ _ => ?_
    cases func <;> exact .pure rfl

theorem compileEntry_abreast (hn : n.Collects) (hblind : b.Blind) (e : Entry) :
    Even b gs gs' m m' (compileEntry n e) (compileEntry n e) := by
  unfold compileEntry
  refine .bind_same (lower_abreast hn hblind e) fun p _ _ => ?_
  cases p with
  | error e => exact .pure rfl
  | ok plan =>
    refine .bind_same .fresh fun serial _ _ => ?_
    exact .pure rfl

theorem compile_abreast (hn : n.Collects) (hblind : b.Blind) (rs : Replacements)
    (method : Method) : Even b gs gs' m m' (compile n rs method) (compile n rs method) := by
  unfold compile
  refine .bind_same (.await _) fun _ _ _ => ?_
  split
  · exact .pure rfl
  · split
    · exact .pure rfl
    · refine .holding (.bind_same (lower_abreast hn hblind _) fun p _ _ => ?_)
      cases p with
      | error e => exact .pure rfl
      | ok plan =>
        refine .modifyHost_same (fun h => ?_) (fun h => ?_) fun _ _ => .pure rfl
        · unfold Host.modifyReplacements Host.unplaced
          cases h.runtime <;> rfl
        · obtain ⟨r, s, he⟩ := h.modifyReplacements_eq _
          rw [he]
          rfl

theorem plan_abreast (hn : n.Collects) (hblind : b.Blind) (rs : Replacements) (method : Method)
    (mode : CallMode) : Even b gs gs' m m' (plan n rs method mode) (plan n rs method mode) := by
  cases mode with
  | interpreted =>
    unfold plan
    dsimp only
    split
    · exact .pure rfl
    · exact lower_abreast hn hblind _
  | compiled =>
    refine .bind_same (compile_abreast hn hblind rs method) fun c _ _ => ?_
    exact .pure rfl

/-! ### Native functions -/

theorem run_runNative {collects : Bool} (hs : m.host.Settled b collects gs) (func : CodeRef)
    (args : List NativeArg) : (runNative n func args).run m =
      ((b.native func).elim (pure 0) fun body =>
        n.runCode ((body (args.map NativeArg.unplaced)).code
        collects args (·.register args))).run
        { m with trace := m.trace ++ [.called func args] } := by
  unfold runNative Work.trace Work.host
  simp only [StateT.run_bind, StateT.run_modify, StateT.run_get, StateT.run_pure, pure_bind,
    hs.native]
  unfold Bodies.natives
  cases b.native func <;> rfl

/-- A native function comes to the same, if it is confined and there is room when it ends. -/
theorem runNative_abreast (hn : n.Collects) {func : CodeRef} {args args' : List NativeArg}
    {fits : NativeResult → Heap → Prop} (hnull : ∀ h, fits .null h)
    (hargs : List.Forall₂ (NativeArg.Alongside gs gs') args args')
    (hc : ∀ body ∈ b.native func,
      (body (args.map NativeArg.unplaced)).Confined args fits m.host.heap)
    (hb : m.Beside b gs gs' m')
    (hr : ((runNative n func args).run m).2.host.Roomy)
    (hr' : ((runNative n func args').run m').2.host.Roomy) :
    Body.Ends b gs gs' fits (·.register args) (·.register args') ((runNative n func args).run m)
      ((runNative n func args').run m') := by
  have hm := (runNative_keeps hn func args hb.left).2 hr
  have hm' := (runNative_keeps hn func args' hb.right).2 hr'
  have hsame := Host.unplaced_args hb.left hb.right hm hm' hargs
  have hcalled : ({ m with trace := m.trace ++ [.called func args] } : Machine).Beside b gs gs'
      { m' with trace := m'.trace ++ [.called func args'] } :=
    hb.withEvent (by simp [TraceEvent.unplaced, hsame])
  rw [run_runNative hb.left] at hr ⊢
  rw [run_runNative hb.right] at hr' ⊢
  rw [hsame] at hr' ⊢
  cases hf : b.native func with
  | none => exact ⟨.null, rfl, rfl, hnull _, hcalled⟩
  | some body =>
    rw [hf] at hr hr'
    exact Body.abreast hn _ hargs (hc body hf) hcalled fun _ => ⟨hr, hr'⟩

theorem unpinAll_beside {ks ks' : List Guard}
    (hk : ks'.map Guard.unplaced = ks.map Guard.unplaced)
    (hb : m.Beside b (ks ++ gs) (ks' ++ gs') m') :
    (m.withHost { m.host with heap := m.host.heap.unpinAll ks }).Beside b gs gs'
      (m'.withHost { m'.host with heap := m'.host.heap.unpinAll ks' }) := by
  have hheap : m'.host.heap.unplaced = m.host.heap.unplaced := congrArg Host.heap hb.host
  have hback : (m.host.heap.unpinAll ks).Elsewhere (m'.host.heap.unpinAll ks') := by
    unfold Heap.Elsewhere
    rw [Heap.unpinAll_unplaced, Heap.unpinAll_unplaced, hk, hheap]
  exact hb.withHost (Host.unplaced_heap hb.host hback) (unpinAll_settled hb.left).1
    (unpinAll_settled hb.right).1

theorem marshal_beside {p : CallPlan} {args : List Value} {error error' : Option DispatchError}
    {s s' : Marshalled} (hb : m.Beside b gs gs' m') (hs : p.marshal m.host.heap args = (error, s))
    (hs' : p.marshal m'.host.heap args = (error', s')) : error' = error ∧ s.Alongside s' ∧
      (m.withHost { m.host with heap := s.heap }).Beside b (s.guards ++ gs) (s'.guards ++ gs')
        (m'.withHost { m'.host with heap := s'.heap }) := by
  have hheap : m.host.heap.Elsewhere m'.host.heap := congrArg Host.heap hb.host
  have hsame := p.marshal_alongside args hheap
  have hleft := (marshal_settled p args hb.left).1
  have hright := (marshal_settled p args hb.right).1
  rw [hs] at hsame hleft
  rw [hs'] at hsame hright
  exact ⟨hsame.1, hsame.2, hb.withHost (Host.unplaced_heap hb.host hsame.2.heap) hleft hright⟩

theorem call_abreast_of_handed (hn : n.Collects) {p : CallPlan} {args : List Value}
    {s s' : Marshalled} (hl : m.host.isLoaded p.entry = true)
    (hl' : m'.host.isLoaded p.entry = true) (hcount : args.length = p.entry.convention.argCount)
    (hs : p.marshal m.host.heap args = (none, s)) (hs' : p.marshal m'.host.heap args = (none, s'))
    (hc : p.Confined b m args) (hr : ((call n p args).after m).host.Roomy)
    (hr' : ((call n p args).after m').host.Roomy) :
    Even b gs gs' m m' (call n p args) (call n p args) := fun hb => by
  obtain ⟨hresult, hafter⟩ := call_of_handed n hl hcount hs
  obtain ⟨hresult', hafter'⟩ := call_of_handed n hl' hcount hs'
  rw [hafter] at hr ⊢
  rw [hafter'] at hr' ⊢
  rw [hresult, hresult']
  obtain ⟨-, halong, hb₁⟩ := marshal_beside hb hs hs'
  have hargs : List.Forall₂ (NativeArg.Alongside (s.guards ++ gs) (s'.guards ++ gs')) s.args
      s'.args := halong.args.imp fun _ _ ha =>
    ha.mono (fun _ => List.mem_append_left _) fun _ => List.mem_append_left _
  have hconfined : ∀ body ∈ b.native p.func, s.Confines p.result body := fun body hbody => by
    have hnative : (m.host.native p.func).map (· s.args) =
        some ((body (s.args.map NativeArg.unplaced)).code false s.args (·.register s.args)) := by
      rw [hb.left.native, Bodies.natives, Option.mem_def.1 hbody]
      rfl
    exact hc s _ _ ⟨hl, hcount, hs, hnative, rfl⟩ body hbody
  have hroom := (unpinAll_settled (runNative_keeps hn p.func s.args hb₁.left).1).2 hr
  have hroom' := (unpinAll_settled (runNative_keeps hn p.func s'.args hb₁.right).1).2 hr'
  obtain ⟨r, hx, hy, hfits, hb₂⟩ :=
    runNative_abreast hn (fun _ => trivial) hargs hconfined hb₁ hroom hroom'
  have hvalue := Host.value_alongside hb₂.host hb₂.left hb₂.right hroom hroom' hargs hfits
  have hleft : (runNative n p.func s.args).result _ = r.register s.args := hx
  have hright : (runNative n p.func s'.args).result _ = r.register s'.args := hy
  rw [hleft, hright]
  exact ⟨hvalue.symm, unpinAll_beside halong.guards hb₂⟩

/-- A call comes to the same, if the native function that it enters is confined and there is room
when it returns. -/
theorem call_abreast (hn : n.Collects) {p : CallPlan} {args : List Value}
    (hc : p.Confined b m args) (hr : ((call n p args).after m).host.Roomy)
    (hr' : ((call n p args).after m').host.Roomy) :
    Even b gs gs' m m' (call n p args) (call n p args) := fun hb => by
  have hloaded : m'.host.isLoaded p.entry = m.host.isLoaded p.entry :=
    Host.same (f := fun h => h.isLoaded p.entry) (fun _ => rfl) hb.host
  cases hl : m.host.isLoaded p.entry with
  | false =>
    rw [hl] at hloaded
    obtain ⟨hresult, hafter⟩ := call_of_unloaded n args hl
    obtain ⟨hresult', hafter'⟩ := call_of_unloaded n args hloaded
    rw [hresult, hresult', hafter, hafter']
    exact ⟨rfl, hb⟩
  | true =>
    rw [hl] at hloaded
    by_cases hcount : args.length = p.entry.convention.argCount
    · cases hs : p.marshal m.host.heap args with
      | mk error s =>
        cases hs' : p.marshal m'.host.heap args with
        | mk error' s' =>
          obtain ⟨rfl, halong, hb₁⟩ := marshal_beside hb hs hs'
          cases error' with
          | none => exact call_abreast_of_handed hn hl hloaded hcount hs hs' hc hr hr' hb
          | some e =>
            obtain ⟨hresult, hafter⟩ := call_of_refused n hl hcount hs
            obtain ⟨hresult', hafter'⟩ := call_of_refused n hloaded hcount hs'
            rw [hresult, hresult', hafter, hafter']
            exact ⟨rfl, unpinAll_beside halong.guards hb₁⟩
    · obtain ⟨hresult, hafter⟩ := call_of_arity n hl hcount
      obtain ⟨hresult', hafter'⟩ := call_of_arity n hloaded hcount
      rw [hresult, hresult', hafter, hafter']
      exact ⟨rfl, hb⟩

def callPlanned (n : Nested) (plan : Work (Except DispatchError CallPlan)) (args : List Value) :
    Work (Except DispatchError (Option Value)) := do
  match ← plan with
  | .error e => return .error e
  | .ok p => call n p args

theorem callPlanned_abreast (hn : n.Collects) {plan : Work (Except DispatchError CallPlan)}
    {args : List Value} (hplan : Even b gs gs' m m' plan plan)
    (hc : ∀ p, plan.result m = .ok p → p.Confined b (plan.after m) args)
    (hr : ((callPlanned n plan args).after m).host.Roomy)
    (hr' : ((callPlanned n plan args).after m').host.Roomy) :
    Even b gs gs' m m' (callPlanned n plan args) (callPlanned n plan args) := fun hb => by
  obtain ⟨hp, hb₁⟩ := hplan hb
  unfold callPlanned at hr hr' ⊢
  simp only [Work.after_bind, Work.result_bind] at hr hr' ⊢
  rw [← hp] at hr' ⊢
  cases hresult : plan.result m with
  | error e => exact ⟨rfl, hb₁⟩
  | ok p =>
    rw [hresult] at hr hr'
    exact call_abreast hn (hc p hresult) hr hr' hb₁

end Dispatch

end AccelHost
