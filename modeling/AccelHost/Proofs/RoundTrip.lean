import AccelHost.Proofs.Laid
import AccelHost.Proofs.Registers
import AccelHost.Proofs.RejectedCalls

/-!
Arguments that come back. If the register of a native function shows one of its arguments, its
caller gets that very value. For a primitive value nothing but the low bytes of the register counts.
For a reference the register holds the address that was handed over, and that still stands for the
same cell when the function is done, because the cell was pinned and no other block was laid there.
-/
namespace AccelHost

open Holding

/-- A machine whose units and guards are told apart, whose blocks lie where none has lain before,
and whose pins and guards tally as long as no count wrapped. -/
structure Machine.Regular (G : List UnitHandle) (gs : List Guard) (m : Machine) : Prop where
  orderly : m.Orderly G
  laid : m.host.heap.Laid m.host.addressLimit
  tallied : m.host.heap.wrapped = false → m.host.Tallied gs

variable {n : Nested} {G : List UnitHandle} {gs gs' : List Guard} {m m' m₁ : Machine}

namespace Machine.Regular

theorem ofProgram {program : Program} (h : 0 < program.layout.first) :
    (Machine.ofProgram program).Regular [] [] :=
  ⟨Machine.orderly_ofProgram program, Host.laid_ofProgram h,
    fun _ => Host.tallied_ofProgram program⟩

theorem enter {program : Program} (ho : m.Orderly G) (h : 0 < program.layout.first) :
    (m.enter program).Regular G [] :=
  ⟨ho.enter program, Host.laid_ofProgram h, fun _ => Host.tallied_ofProgram program⟩

theorem moves (hm : m.Regular G gs) (h : Moves [] m (ofGuards gs') m') :
    m'.Regular G (gs' ++ gs) where
  orderly := by simpa using (h.orderly (G := G) (by simpa using hm.orderly)).1
  laid := (h.laid hm.laid).1
  tallied hw := by simpa using h.tallied hw (F := gs) (by simpa using hm.tallied (h.wrapped hw))

theorem answers (hn : n.Lawful) (hm : m.Regular G gs) (ops : List Op) :
    ((ops.mapM (Op.answer n)).after m).Regular G gs := by
  have hmoves : Moves [] m (ofGuards []) _ := answers_carries (G := G) hn ops hm.orderly
  exact hm.moves hmoves

theorem enters {p : CallPlan} {args : List Value} {s : Marshalled} {code : Behaviour UInt64}
    (hm : m.Regular G gs) (he : p.Enters args m s code m₁) : m₁.Regular G (s.guards ++ gs) := by
  have hmoves : Moves [] m (ofGuards s.guards ++ []) m₁ := he.moves
  rw [List.append_nil] at hmoves
  exact hm.moves hmoves

theorem moment {d : Nat} {code : Behaviour UInt64} (hm : m.Regular G gs)
    (h : Moment d code m m') : ∃ gs', m'.Regular G (gs' ++ gs) := by
  obtain ⟨gs', hmoves⟩ := h.moves (X := []) (G := G) hm.orderly
  rw [List.append_nil] at hmoves
  exact ⟨gs', hm.moves hmoves⟩

end Machine.Regular

/-! ### References -/

/-- The address of a cell, as it was handed out, stands for a reference that has its kind. -/
structure Heap.Finds (h : Heap) (r : ObjRef) (c : Cell) : Prop where
  ne_zero : UInt64.ofNat c.base ≠ 0
  resolve : h.resolveAddress (UInt64.ofNat c.base).toNat = some r
  kind : h.kind r = .ok c.kind

theorem Heap.Mapped.finds {h : Heap} {r : ObjRef} {c c' : Cell} (hm : h.Mapped)
    (hc : h.cell? r = some c') (hbase : c'.base = c.base) (hkind : c'.kind = c.kind) :
    h.Finds r c := by
  obtain ⟨_, hsize, hend⟩ := hm.placed _ c' (cell?_iff_cellAt.1 hc).2
  have hnat : (UInt64.ofNat c.base).toNat = c'.base + 0 := by
    rw [← hbase, UInt64.toNat_ofNat_of_lt' (by omega), Nat.add_zero]
  obtain ⟨hne, hfound⟩ := hm.resolve_within hc hnat hsize
  refine ⟨hne, hfound, ?_⟩
  rw [Heap.kind, get_of_some hc, ← hkind]
  rfl

/-- While a native function runs, the cells that it was handed stay where they are and keep their
shape, whatever it does. -/
theorem CallPlan.Enters.kept {p : CallPlan} {args : List Value} {s : Marshalled}
    {code : Behaviour UInt64} (he : p.Enters args m s code m₁) (hm : m.Regular G gs)
    (hmoves : Moves [] m₁ (ofGuards []) m') (hw : m'.host.heap.wrapped = false) {r : ObjRef}
    {c : Cell} (hr : .ref (some r) ∈ args) (hc : m.host.heap.cell? r = some c) :
    ∃ c', m'.host.heap.cell? r = some c' ∧ c'.base = c.base ∧ c'.shape = c.shape := by
  have hbegun := hm.enters he
  have hlater : m'.Regular G (s.guards ++ gs) := hbegun.moves hmoves
  have hhanded := CallPlan.handed_marshal he.count he.handed
  have href : r ∈ s.guards.map (·.ref) := by
    rw [hhanded.guards]
    exact List.mem_filterMap.2 ⟨_, hr, rfl⟩
  obtain ⟨g, hg, rfl⟩ := List.mem_map.1 href
  have hguard : g ∈ s.guards ++ gs := List.mem_append_left _ hg
  have htallied := hbegun.tallied (hmoves.wrapped hw)
  -- The cell at the beginning and later: pins are all that handing over changes, and the guard
  -- keeps it in place and of its shape from then on.
  obtain ⟨c₁, hc₁, _⟩ := htallied.heap.held g (List.mem_append_left _ hguard)
  obtain ⟨c₂, hc₂, hbase₂⟩ :=
    (hlater.tallied hw).heap.held g (List.mem_append_left _ hguard)
  refine ⟨c₂, hc₂, ?_, ?_⟩
  · have hfirst := hhanded.held g hg
    rw [hc] at hfirst
    rw [hbase₂, ← Option.some.inj hfirst]
  · obtain ⟨_, _, hadds⟩ := Marshalled.adds_of_addAll he.handed
    rw [he.begins] at hc₁
    have hsame : c₁.unpinned = c.unpinned := by simpa [hc₁, hc] using hadds.heap g.ref
    have hkept := hmoves.shape_of_guard hguard hw htallied
    rw [hc₂, he.begins, hc₁] at hkept
    have hshape : c₁.unpinned.shape = c.unpinned.shape := by rw [hsame]
    exact (Option.some.inj hkept).trans hshape

theorem CallPlan.Enters.finds {p : CallPlan} {args : List Value} {s : Marshalled}
    {code : Behaviour UInt64} (hn : n.Lawful) (he : p.Enters args m s code m₁)
    (hm : m.Regular G gs) (hroomy : ((n.runCode code).after m₁).host.Roomy) {r : ObjRef} {c : Cell}
    (hr : .ref (some r) ∈ args) (hc : m.host.heap.cell? r = some c) :
    ((n.runCode code).after m₁).host.heap.Finds r c := by
  have hbegun := hm.enters he
  have hrun : Moves [] m₁ (ofGuards []) ((n.runCode code).after m₁) :=
    hn.runCode (X := []) code hbegun.orderly
  have hended : ((n.runCode code).after m₁).Regular G (s.guards ++ gs) := hbegun.moves hrun
  obtain ⟨c', hc', hbase, hshape⟩ := he.kept hm hrun hroomy.unwrapped hr hc
  exact (hended.laid.mapped hroomy.room).finds hc' hbase (congrArg Prod.fst hshape)

/-! ### Values -/

/-- A convention returns what it takes for a parameter: both are of a kind, or the receiver is
returned as an object. -/
def Convention.Returns (c : Convention) (kind : ParamKind) : Prop :=
  kind = c.result ∨ kind = .receiver ∧ c.result = .object

instance (c : Convention) (kind : ParamKind) : Decidable (c.Returns kind) :=
  inferInstanceAs (Decidable (_ ∨ _))

namespace Convention.Returns

variable {c : Convention} {kind : ParamKind}

theorem type (h : c.Returns kind) : NativeType.ofResult c.result = NativeType.ofResult kind := by
  rcases h with rfl | ⟨rfl, hres⟩
  · rfl
  · rw [hres]
    rfl

theorem array {k : ElemKind} (h : c.Returns kind) (hres : c.result = .array k) :
    kind = .array k := by
  rcases h with rfl | ⟨_, hobject⟩
  · exact hres
  · cases hres.symm.trans hobject

end Convention.Returns

namespace CallPlan

variable {h h' : Heap} {e : Entry} {func : CodeRef} {register : UInt64}

/-- A register with the address of a cell stands for its reference, if the cell is of the kind that
is due where an array is. -/
theorem value_of_finds {r : ObjRef} {c : Cell} (hf : h.Finds r c)
    (htype : NativeType.ofResult e.convention.result = .pointer)
    (hkind : ∀ k, e.convention.result = .array k → c.kind = .array k)
    (hshown : (NativeArg.pointer (UInt64.ofNat c.base)).ShownIn register) :
    (ofEntry e func).value h register = .ok (some (.ref (some r))) := by
  have href : (ofEntry e func).refResult h (UInt64.ofNat c.base) = .ok (.ref (some r)) := by
    rw [refResult, if_neg hf.ne_zero, hf.resolve]
    simp only [ofEntry]
    cases hres : e.convention.result with
    | array k => simp [hf.kind, hkind k hres]
    | _ => rfl
  have hresult : (ofEntry e func).result = .pointer := htype
  rw [value, hresult, hshown.eq, href]
  rfl

theorem value_of_shown {kind : ParamKind} {v : Value} {a : NativeArg} {as : List NativeArg}
    (hcross : h.Crosses kind v (a :: as)) (hreturns : e.convention.Returns kind)
    (hshown : a.ShownIn register)
    (hfinds : ∀ r c, v = .ref (some r) → h.cell? r = some c → h'.Finds r c) :
    (ofEntry e func).value h' register = .ok (some v) := by
  have htype := hreturns.type
  cases hcross with
  | @prim k v =>
    have hresult : (ofEntry e func).result = .prim k := htype
    simp only [value, hresult, hshown.ofWord]
  | null =>
    have hresult : (ofEntry e func).result = .pointer := htype
    rw [value, hresult, hshown.eq]
    rfl
  | receiver hc =>
    refine value_of_finds (hfinds _ _ rfl hc) htype (fun k hres => ?_) hshown
    cases hreturns.array hres
  | object hc =>
    refine value_of_finds (hfinds _ _ rfl hc) htype (fun k hres => ?_) hshown
    cases hreturns.array hres
  | array hc hkind =>
    refine value_of_finds (hfinds _ _ rfl hc) htype (fun k hres => ?_) hshown
    cases hreturns.array hres
    exact hkind

end CallPlan

/-! ### Calls -/

/-- A call that begins at a machine gives back arguments: where its native function is entered, the
argument of each parameter that the convention may return stands at a place among those that are
handed over, and if the register shows it in the end, the call results in its value. For a
reference all blocks must lie at addresses by then, and no count of pins may have wrapped. -/
def CallPlan.RoundTrips (n : Nested) (p : CallPlan) (args : List Value) (m : Machine)
    (result : Except DispatchError (Option Value)) : Prop :=
  ∀ s code m₁, p.Enters args m s code m₁ →
    ∀ (i : Nat) (kind : ParamKind) (v : Value), p.entry.convention.nativeParams[i]? = some kind →
      args[i]? = some v → p.entry.convention.Returns kind →
      ∃ a, s.args[p.entry.convention.place i]? = some a ∧
        let run := n.runCode code
        (a.ShownIn (run.result m₁) →
          (∀ r, v = .ref (some r) → (run.after m₁).host.Roomy) → result = .ok (some v))

namespace Dispatch

/-- Where a native function is entered, a call results in what its register stands for then. -/
theorem result_call_of_enters {p : CallPlan} {args : List Value} {s : Marshalled}
    {code : Behaviour UInt64} (he : p.Enters args m s code m₁) :
    (call n p args).result m =
      p.value ((n.runCode code).after m₁).host.heap ((n.runCode code).result m₁) := by
  obtain ⟨hresult, -⟩ := call_of_handed n he.loaded he.count he.handed
  obtain ⟨f, hf, hcode⟩ := Option.map_eq_some_iff.1 he.native
  rw [hresult]
  simp only [runNative, Work.result_bind, Work.after_bind, Work.after_trace, Work.result_host,
    Work.after_host, Machine.withHost, hf, hcode]
  rw [he.begins]

theorem roundTrips_call (hn : n.Lawful) (hm : m.Regular G gs) (e : Entry) (func : CodeRef)
    (args : List Value) : (CallPlan.ofEntry e func).RoundTrips n args m
      ((call n (.ofEntry e func) args).result m) := by
  intro s code m₁ he i kind v hk hv hreturns
  obtain ⟨parts, hparts, hadds⟩ := Marshalled.adds_of_addAll he.handed
  obtain ⟨a, as, hcross, ha⟩ := Heap.exists_crossing hparts hk hv
  have hargs : s.args = parts.flatten := by simpa using hadds.args
  refine ⟨a, by rw [hargs]; exact ha, fun hshown hroomy => ?_⟩
  rw [result_call_of_enters he]
  refine CallPlan.value_of_shown hcross hreturns hshown fun r c href hc => ?_
  subst href
  exact he.finds hn hm (hroomy r rfl) (List.mem_of_getElem? hv) hc

/-- The interpretation of an entry, whose call begins when it is lowered. -/
theorem roundTrips_interpret (hn : n.Lawful) (hm : m.Regular G gs) {e : Entry} {p : CallPlan}
    (hp : (lower n e).result m = .ok p) (args : List Value) :
    p.RoundTrips n args ((lower n e).after m) ((interpret n e args).result m) := by
  have hmoves : Moves [] m (ofGuards []) ((lower n e).after m) := lower_carries hn e hm.orderly
  have hresult : (interpret n e args).result m =
      (call n p args).result ((lower n e).after m) := by
    simp only [interpret, Work.result_bind, hp]
  obtain ⟨_, func, rfl, _⟩ := eq_ofEntry_of_lower hp
  rw [hresult]
  exact roundTrips_call hn (hm.moves hmoves) e func args

/-- An entry that is lowered leaves a machine in order, and its plan is of an entry. -/
theorem Callable.lowerSettled_spec (hn : n.Lawful) {rs : Replacements} (hc : Callable m rs)
    (method : Method) (mode : CallMode) (ho : m.Orderly G) :
    Moves [] m [] ((lowerSettled n rs method mode).after m) ∧
      ∀ p, (lowerSettled n rs method mode).result m = .ok p → ∃ e func, p = .ofEntry e func := by
  unfold lowerSettled
  cases he : rs.published.find? method with
  | none => exact ⟨.refl [] m, fun _ hp => by cases hp⟩
  | some e =>
    have hlower : Moves [] m [] ((lower n e).after m) := lower_carries hn e (by simpa using ho)
    have ho₁ : ((lower n e).after m).Orderly G := by
      simpa using (hlower.orderly (G := G) (by simpa using ho)).1
    have hsuits := fun p => hc.lowersSuited hn method ho e p he
    simp only [Work.result_bind, Work.after_bind]
    refine ⟨hlower.trans (settle_moves mode ho₁ hsuits), fun p hp => ?_⟩
    rw [(settle_spec mode ho₁ hsuits).1] at hp
    obtain ⟨_, func, hplan, _⟩ := eq_ofEntry_of_lower hp
    exact ⟨e, func, hplan⟩

theorem locked_carries {α : Type} {rs : Replacements} (mode : CallMode) {w : Work α}
    (h : Carries G [] (Dispatch.taken rs mode m) w fun _ => []) :
    Carries G [] m (locked rs mode w) fun _ => [] := by
  cases mode with
  | interpreted => exact h
  | compiled => exact .holding h

theorem Callable.plan_spec (hn : n.Lawful) {rs : Replacements} (hc : Callable m rs)
    (hm : m.Regular G gs) {method : Method} {mode : CallMode} {p : CallPlan}
    (hp : (plan n rs method mode).result m = .ok p) :
    ((plan n rs method mode).after m).Regular G gs ∧ ∃ e func, p = .ofEntry e func := by
  -- A plan that is kept is taken as it is. Otherwise the entry is lowered, and what comes of it is
  -- kept or not.
  have hlowered (mode : CallMode) (hp : (plan n (cleared rs) method mode).result m = .ok p) :
      ((plan n (cleared rs) method mode).after m).Regular G gs ∧
        ∃ e func, p = .ofEntry e func := by
    obtain ⟨hresult, hafter⟩ := plan_cleared (n := n) (m := m) rs method mode
    rw [hresult] at hp
    rw [hafter]
    obtain ⟨hlower, hplans⟩ := (hc.taken mode).lowerSettled_spec hn method mode
      (taken_orderly rs mode hm.orderly)
    have hlocked : Carries G [] m (locked rs mode (lowerSettled n rs method mode)) fun _ => [] :=
      locked_carries mode fun _ => hlower
    have hmoves : Moves [] m (ofGuards []) _ := hlocked (by simpa using hm.orderly)
    exact ⟨hm.moves hmoves, hplans p (by cases mode <;> exact hp)⟩
  cases mode with
  | interpreted => exact hlowered .interpreted hp
  | compiled =>
    cases hget : rs.compiled.get? method with
    | none =>
      have hplan : plan n rs method .compiled = plan n (cleared rs) method .compiled := by
        unfold plan compile
        rw [hget]
        rfl
      rw [hplan] at hp ⊢
      exact hlowered .compiled hp
    | some c =>
      obtain ⟨e, func, _, _, rfl⟩ := hc.compiles hm.orderly method c (Keyed.mem_of_get? hget)
      have hawait : Moves [] m (ofGuards []) (m.await (.calls rs.id)) :=
        .quiet (.refl m.host) Machine.stuck_await
      simp only [plan, compile, hget, Work.result_bind, Work.after_bind, Work.after_await,
        Work.result_pure, Work.after_pure, Except.map] at hp ⊢
      exact ⟨hm.moves hawait, e, func, (Except.ok.inj hp).symm⟩

theorem roundTrips_invoke (hn : n.Lawful) (hm : m.Regular G gs) {rs : Replacements}
    (hc : Callable m rs) {method : Method} {mode : CallMode} {p : CallPlan}
    (hp : (plan n rs method mode).result m = .ok p) (args : List Value) :
    p.RoundTrips n args ((plan n rs method mode).after m)
      ((invoke n rs method mode args).result m) := by
  obtain ⟨hplanned, e, func, rfl⟩ := hc.plan_spec hn hm hp
  have hresult : (invoke n rs method mode args).result m =
      (call n (.ofEntry e func) args).result ((plan n rs method mode).after m) := by
    simp only [invoke_eq, Work.result_bind, hp]
  rw [hresult]
  exact roundTrips_call hn hplanned e func args

end Dispatch

/-- Arguments come back. Every host begins regular unless it lays a block at null, operations leave
a machine regular, and it is regular at each moment of a native function, also within its calls. At
a regular machine the call of an entry, its interpretation and the call of a method in either mode
give back arguments: if the register of the native function shows in its low bytes what was handed
over for a parameter that the convention may return, the call results in exactly the value that was
given for it. That holds whatever the function did meanwhile, and whatever stands above those bytes.
-/
theorem argument_roundTrips (d : Nat) :
    ((∀ program, 0 < program.layout.first → (Machine.ofProgram program).Regular [] []) ∧
      ∀ G m program, Machine.Orderly G m → 0 < program.layout.first →
        (m.enter program).Regular G []) ∧
    ∀ (G : List UnitHandle) (gs : List Guard) (m : Machine), m.Regular G gs →
      (∀ ops : List Op, ((ops.mapM (Op.answer (.ofDepth d))).after m).Regular G gs) ∧
      (∀ (p : CallPlan) (args : List Value) s code m₁ m', p.Enters args m s code m₁ →
        Moment d code m₁ m' → ∃ gs', m'.Regular G (gs' ++ gs)) ∧
      (∀ (e : Entry) (func : CodeRef) (args : List Value),
        let p := CallPlan.ofEntry e func
        p.RoundTrips (.ofDepth d) args m ((Dispatch.call (.ofDepth d) p args).result m)) ∧
      (∀ (e : Entry) (p : CallPlan) (args : List Value),
        let lower := Dispatch.lower (.ofDepth d) e
        lower.result m = .ok p → p.RoundTrips (.ofDepth d) args (lower.after m)
          ((Dispatch.interpret (.ofDepth d) e args).result m)) ∧
      ∀ (rs : Replacements), Dispatch.Callable m rs →
        ∀ (method : Method) (mode : CallMode) (p : CallPlan) (args : List Value),
        let plan := Dispatch.plan (.ofDepth d) rs method mode
        plan.result m = .ok p → p.RoundTrips (.ofDepth d) args (plan.after m)
          ((Dispatch.invoke (.ofDepth d) rs method mode args).result m) := by
  have hn := Nested.lawful_ofDepth d
  refine ⟨⟨fun program h => .ofProgram h, fun G m program ho h => .enter ho h⟩,
    fun G gs m hm => ⟨?_, ?_, ?_, ?_, ?_⟩⟩
  · exact fun ops => hm.answers hn ops
  · intro p args s code m₁ m' he hmoment
    obtain ⟨gs', hm'⟩ := (hm.enters he).moment hmoment
    exact ⟨gs' ++ s.guards, by rwa [List.append_assoc]⟩
  · exact fun e func args => Dispatch.roundTrips_call hn hm e func args
  · exact fun e p args hp => Dispatch.roundTrips_interpret hn hm hp args
  · exact fun rs hc method mode p args hp => Dispatch.roundTrips_invoke hn hm hc hp args

/-- Collects, and then returns the first argument, or the third with bits above it. -/
def echo (func : CodeRef) (args : List NativeArg) : Behaviour UInt64 :=
  .ask (.step (.heap .relocate)) fun _ => .done <|
    if func.symbol = "first" then (args[0]?.map NativeArg.toWord).getD 0
    else (args[2]?.map NativeArg.toWord).getD 0 + 0xdeadbeef00000000

def echoing : Program where
  settings := {}
  source := { load := fun _ => .error .notBuiltIn, contains := fun _ => false }
  native := fun func => some (echo func)
  provider := fun _ => none
  steps := [.heap (.newArray .int 2 "a"), .heap (.newArray .int 3 "b")]

/-- An entry for an array and a float that returns one of them. -/
def echoEntry (symbol : String) (result : ParamKind) : Entry where
  unit := "Echo"
  method := ⟨"Echo", symbol, "([IF)"⟩
  nativeName := symbol
  target := .direct ⟨none, symbol⟩
  convention := ⟨false, [.array .int, .prim .float], result⟩

/-- The other array moves, and an array and a NaN come back. -/
theorem argument_roundTrips_echo :
    let m := (echoing.steps.mapM (Op.answer (.ofDepth 1))).after (.ofProgram echoing)
    let args := [.ref (some ⟨1, 0⟩), .prim .float 0x7fa00001]
    let first := Dispatch.interpret (.ofDepth 1) (echoEntry "first" (.array .int)) args
    let third := Dispatch.interpret (.ofDepth 1) (echoEntry "third" (.prim .float)) args
    ((first.after m).host.heap.cell? ⟨0, 0⟩).map (·.base) ≠
      (m.host.heap.cell? ⟨0, 0⟩).map (·.base) ∧
    first.result m = .ok (some (.ref (some ⟨1, 0⟩))) ∧
    third.result m = .ok (some (.prim .float 0x7fa00001)) := by
  intro m args first third
  obtain ⟨⟨hprogram, -⟩, hregular⟩ := argument_roundTrips 1
  have hstart := hprogram echoing (by decide)
  have hm : m.Regular [] [] := (hregular [] [] _ hstart).1 echoing.steps
  obtain ⟨-, -, -, hinterpret, -⟩ := hregular [] [] m hm
  -- What is handed over by the plan of an entry, and how its native function begins.
  let plan (symbol : String) (result : ParamKind) : CallPlan :=
    .ofEntry (echoEntry symbol result) ⟨none, symbol⟩
  let handed (symbol : String) (result : ParamKind) : Marshalled :=
    ((plan symbol result).marshal m.host.heap args).2
  let code (symbol : String) (result : ParamKind) : Behaviour UInt64 :=
    echo ⟨none, symbol⟩ (handed symbol result).args
  let begun (symbol : String) (result : ParamKind) : Machine := { m with
    host := { m.host with heap := (handed symbol result).heap }
    trace := m.trace ++ [.called ⟨none, symbol⟩ (handed symbol result).args] }
  have hback : ∀ symbol result, (plan symbol result).RoundTrips (.ofDepth 1) args m
      ((Dispatch.interpret (.ofDepth 1) (echoEntry symbol result) args).result m) :=
    fun symbol result => hinterpret (echoEntry symbol result) _ args rfl
  refine ⟨by decide +kernel, ?_, ?_⟩
  · let array : ParamKind := .array .int
    have henters : (plan "first" array).Enters args m (handed "first" array)
        (code "first" array) (begun "first" array) :=
      ⟨rfl, rfl, Prod.ext (by decide +kernel) rfl, rfl, rfl⟩
    have hshown : ∀ a ∈ (handed "first" array).args[0]?,
        a.ShownIn (((Nested.ofDepth 1).runCode (code "first" array)).result
          (begun "first" array)) := by decide +kernel
    obtain ⟨a, ha, hvalue⟩ := hback _ _ _ _ _ henters 0 array _ rfl rfl (by decide)
    exact hvalue (hshown a ha) fun r _ => ⟨by decide +kernel, by decide +kernel⟩
  · let float : ParamKind := .prim .float
    have henters : (plan "third" float).Enters args m (handed "third" float)
        (code "third" float) (begun "third" float) :=
      ⟨rfl, rfl, Prod.ext (by decide +kernel) rfl, rfl, rfl⟩
    have hshown : ∀ a ∈ (handed "third" float).args[2]?,
        a.ShownIn (((Nested.ofDepth 1).runCode (code "third" float)).result
          (begun "third" float)) := by decide +kernel
    obtain ⟨a, ha, hvalue⟩ := hback _ _ _ _ _ henters 1 float _ rfl rfl (by decide)
    exact hvalue (hshown a ha) fun r hr => nomatch hr

/-- An array that has as many pins as are counted is pinned once more for a call, and so has none
while its native function collects. It moves, and nothing lies where the function says that it is.
-/
theorem argument_lost_among_pins :
    let p := echoing.pinning "a" mostPins
    let m := (p.steps.mapM (Op.answer (.ofDepth 1))).after (.ofProgram p)
    let e := echoEntry "first" (.array .int)
    let plan := CallPlan.ofEntry e ⟨none, "first"⟩
    let args := [.ref (some ⟨0, 0⟩), .prim .float 0]
    ∃ s code m₁ a address, plan.Enters args m s code m₁ ∧ s.args[0]? = some a ∧
      a.ShownIn (((Nested.ofDepth 1).runCode code).result m₁) ∧
      (Dispatch.interpret (.ofDepth 1) e args).result m =
        .error (.unknownReference e.method address) := by
  intro p m e plan args
  unfold m p
  rw [echoing.after_pinning (.ofDepth 1) "a" ⟨0, 0⟩ (by decide +kernel)
    (by decide +kernel) rfl le_rfl]
  generalize hm : Machine.withHost _ _ = m'
  let s : Marshalled := (plan.marshal m'.host.heap args).2
  let code : Behaviour UInt64 := echo ⟨none, "first"⟩ s.args
  let begun : Machine := { m' with
    host := { m'.host with heap := s.heap }
    trace := m'.trace ++ [.called ⟨none, "first"⟩ s.args] }
  refine ⟨s, code, begun, .pointer 0x100000000000, 0x100000000000,
    ⟨rfl, rfl, Prod.ext ?_ rfl, ?_, rfl⟩, ?_, ?_, ?_⟩
  all_goals subst hm
  · decide +kernel
  · rfl
  · decide +kernel
  · decide +kernel
  · decide +kernel

end AccelHost
