import AccelHost.Proofs.RunMoves
import AccelHost.Proofs.Tally

/-!
Pinning is scoped to a call, and protects it. While a native function runs, the cells that its call
refers to stay where they were handed over, whatever the function does; when the call is over, in
whatever way, its pins are gone.
-/
namespace AccelHost

open Holding

/-! ### What a native function is handed -/

def Heap.pointer? (h : Heap) : Value → Option UInt64
  | .ref (some r) => (h.cell? r).map fun c => UInt64.ofNat c.base
  | .ref none => some 0
  | .prim .. => none

theorem Heap.of_pin {h h' : Heap} {r : ObjRef} {g : Guard} (hp : h.pin r = .ok (g, h')) :
    g.ref = r ∧ (h.cell? r).map (·.base) = some g.base ∧
      ∀ r', (h'.cell? r').map (·.base) = (h.cell? r').map (·.base) := by
  obtain ⟨c, hc, rfl, rfl⟩ := exists_of_pin hp
  refine ⟨rfl, by simp [hc], fun r' => ?_⟩
  rw [cell?_addPin hc]
  by_cases hr : r' = r
  · simp [hr, hc]
  · simp [hr]

namespace Marshalled

/-- Some values were handed over, as pointers to where they lay in a heap at first. -/
structure Handed (h : Heap) (vs : List Value) (s : Marshalled) : Prop where
  guards : s.guards.map (·.ref) = vs.filterMap Value.ref?
  pointers : s.args.filterMap NativeArg.address? = vs.filterMap h.pointer?
  held : ∀ g ∈ s.guards, (h.cell? g.ref).map (·.base) = some g.base
  bases : ∀ r, (s.heap.cell? r).map (·.base) = (h.cell? r).map (·.base)

variable {h : Heap} {vs : List Value} {s s' : Marshalled}

theorem Handed.pin {r : ObjRef} {args : Guard → Option (List NativeArg)}
    {otherwise : DispatchError} (hs : Handed h vs s)
    (hargs : ∀ g as, args g = some as →
      as.filterMap NativeArg.address? = [UInt64.ofNat g.base])
    (he : s.pin r args otherwise = (none, s')) : Handed h (vs ++ [.ref (some r)]) s' := by
  unfold Marshalled.pin at he
  split at he
  · cases he
  · rename_i g heap hp
    dsimp only at he
    split at he
    · rename_i as has
      cases he
      obtain ⟨hr, hbase, hbases⟩ := Heap.of_pin hp
      have hfirst : (h.cell? r).map (·.base) = some g.base := by rw [← hs.bases r, hbase]
      have hpointer : h.pointer? (.ref (some r)) = some (UInt64.ofNat g.base) := by
        simpa [Heap.pointer?, Function.comp_def] using congrArg (Option.map UInt64.ofNat) hfirst
      refine ⟨?_, ?_, fun g' hg => ?_, fun r' => (hbases r').trans (hs.bases r')⟩
      · simp [push, hs.guards, hr, Value.ref?]
      · simp only [push, List.filterMap_append, hs.pointers, hargs g as has]
        simp [hpointer]
      · simp only [push, List.mem_append, List.mem_singleton] at hg
        rcases hg with hg | rfl
        · exact hs.held g' hg
        · rw [hr, hfirst]
    · cases he

theorem Handed.add {method : Method} {index : Nat} {kind : ParamKind} {v : Value}
    (hs : Handed h vs s) (he : s.add method index kind v = (none, s')) :
    Handed h (vs ++ [v]) s' := by
  have hsame : ∀ {as : List NativeArg}, v.ref? = none →
      as.filterMap NativeArg.address? = (h.pointer? v).toList →
      Handed h (vs ++ [v]) (s.push as) := by
    intro as hr hp
    refine ⟨by simp [push, hs.guards, hr], ?_, hs.held, hs.bases⟩
    simp only [push, List.filterMap_append, hs.pointers, hp]
    cases hv : h.pointer? v <;> simp [hv]
  unfold Marshalled.add at he
  dsimp only at he
  split at he
  · split at he
    · cases he
      exact hsame rfl rfl
    · cases he
  · cases he
  · cases he
    exact hsame rfl rfl
  · exact hs.pin (fun g as has => by cases has; rfl) he
  · exact hs.pin (fun g as has => by cases has; rfl) he
  · cases he
  · split at he
    · cases he
    · split at he
      · refine hs.pin (fun g as has => ?_) he
        unfold ofArray at has
        split at has
        · cases has
          rfl
        · cases has
      · cases he
  · cases he

theorem Handed.addAll {method : Method} {index : Nat} {kinds : List ParamKind}
    {values : List Value} (hs : Handed h vs s) (hlen : values.length = kinds.length)
    (he : addAll method index kinds values s = (none, s')) : Handed h (vs ++ values) s' := by
  induction kinds generalizing index values s vs with
  | nil =>
    rw [List.length_nil, List.length_eq_zero_iff] at hlen
    subst hlen
    cases he
    simpa using hs
  | cons k ks ih =>
    cases values with
    | nil => cases hlen
    | cons v values =>
      unfold Marshalled.addAll at he
      split at he
      · rename_i s₁ hadd
        have := ih (hs.add hadd) (Nat.succ.inj hlen) he
        simpa using this
      · cases he

end Marshalled

/-- A call that has its arguments handed over has a guard for each cell among them, and gives the
addresses that they have. -/
theorem CallPlan.handed_marshal {p : CallPlan} {h : Heap} {args : List Value} {s : Marshalled}
    (hlen : args.length = p.entry.convention.argCount) (he : p.marshal h args = (none, s)) :
    Marshalled.Handed h args s := by
  have hempty : Marshalled.Handed h [] { heap := h } :=
    ⟨rfl, rfl, fun _ hg => (by cases hg), fun _ => rfl⟩
  exact hempty.addAll (by rw [hlen, Convention.length_nativeParams]) he

/-! ### The moments of a call -/

/-- A call gets as far as its native function: what is handed over, the code, and the machine at
which it begins. -/
structure CallPlan.Enters (p : CallPlan) (args : List Value) (m : Machine) (s : Marshalled)
    (code : Behaviour UInt64) (m₁ : Machine) : Prop where
  loaded : m.host.isLoaded p.entry = true
  count : args.length = p.entry.convention.argCount
  handed : p.marshal m.host.heap args = (none, s)
  native : (m.host.native p.func).map (· s.args) = some code
  begins : m₁ = { m with
    host := { m.host with heap := s.heap }
    trace := m.trace ++ [.called p.func s.args] }

/-- From code that is carried out at a machine to the rest of it at a later one. -/
inductive Nested.Reaches (n : Nested) {α : Type} :
    Behaviour α → Machine → Behaviour α → Machine → Prop where
  | here {code : Behaviour α} {m : Machine} : Reaches n code m code m
  | next {request : Action} {next : ActionReply → Behaviour α} {m m' : Machine}
      {rest : Behaviour α} :
      Reaches n (next ((n.answer request).result m)) ((n.answer request).after m) rest m' →
      Reaches n (.ask request next) m rest m'

/-- The call that an operation makes: its plan, its values, and the machine at which it begins. -/
inductive DispatchOp.Calls (n : Nested) (m : Machine) :
    DispatchOp → CallPlan → List Value → Machine → Prop where
  | invoke {rs : Replacements} {method : Method} {mode : CallMode} {args : List Argument}
      {name : Option Label} {values : List Value} {p : CallPlan} :
      m.host.replacements? = some rs → m.host.arguments args = .ok values →
      (Dispatch.plan n rs method mode).result m = .ok p →
      Calls n m (.invoke method mode args name) p values
        ((Dispatch.plan n rs method mode).after m)
  | invokeEntry {entry : Label} {e : Entry} {args : List Argument} {name : Option Label}
      {values : List Value} {p : CallPlan} :
      m.host.entries.get? entry = some e → m.host.arguments args = .ok values →
      (Dispatch.lower n e).result m = .ok p →
      Calls n m (.invokeEntry entry args name) p values ((Dispatch.lower n e).after m)
  | call {compiled : Label} {c : CompiledCall} {args : List Argument} {name : Option Label}
      {values : List Value} :
      m.host.calls.get? compiled = some c → m.host.arguments args = .ok values →
      Calls n m (.call compiled args name) c.plan values m

/-- The moments of a native function that begins at a machine: where it makes a request or ends,
and within the calls that it makes, to any depth. -/
inductive Moment : Nat → Behaviour UInt64 → Machine → Machine → Prop where
  | own {d : Nat} {code rest : Behaviour UInt64} {m m' : Machine} :
      (Nested.ofDepth d).Reaches code m rest m' → Moment d code m m'
  | calling {d : Nat} {code : Behaviour UInt64} {next : ActionReply → Behaviour UInt64}
      {op : DispatchOp} {p : CallPlan} {values : List Value} {m m₁ m₂ : Machine} :
      (Nested.ofDepth (d + 1)).Reaches code m (.ask (.step (.dispatch op)) next) m₁ →
      op.Calls (.ofDepth d) { m₁ with journal := [] } p values m₂ → Moment (d + 1) code m m₂
  | within {d : Nat} {code inner : Behaviour UInt64} {next : ActionReply → Behaviour UInt64}
      {op : DispatchOp} {p : CallPlan} {values : List Value} {s : Marshalled}
      {m m₁ m₂ m₃ m' : Machine} :
      (Nested.ofDepth (d + 1)).Reaches code m (.ask (.step (.dispatch op)) next) m₁ →
      op.Calls (.ofDepth d) { m₁ with journal := [] } p values m₂ →
      p.Enters values m₂ s inner m₃ → Moment d inner m₃ m' → Moment (d + 1) code m m'

variable {n : Nested} {G : List UnitHandle} {X : List Holding} {m m' : Machine}

theorem CallPlan.Enters.moves {p : CallPlan} {args : List Value} {s : Marshalled}
    {code : Behaviour UInt64} (h : p.Enters args m s code m') :
    Moves X m (ofGuards s.guards ++ X) m' := by
  have hpins := p.pins_marshal m.host.heap args
  rw [h.handed] at hpins
  rw [h.begins]
  exact (Moves.pins hpins).trans (.event fun _ hx => by cases hx)

theorem Nested.Reaches.moves (hn : n.Lawful) {α : Type} {code rest : Behaviour α}
    (h : n.Reaches code m rest m') (ho : m.Orderly (units X ++ G)) : Moves X m X m' := by
  induction h with
  | here => exact .refl X _
  | @next request _ m _ _ _ ih =>
    have hm := hn.answer request ho
    exact hm.trans (ih (hm.orderly ho).1)

theorem Nested.Reaches.after_runCode {α : Type} {code rest : Behaviour α}
    (h : n.Reaches code m rest m') : (n.runCode rest).after m' = (n.runCode code).after m := by
  induction h with
  | here => rfl
  | next _ ih => exact ih

theorem DispatchOp.Calls.moves (hn : n.Lawful) {op : DispatchOp} {p : CallPlan}
    {values : List Value} (h : op.Calls n m p values m') (ho : m.Orderly (units X ++ G)) :
    Moves X m X m' := by
  cases h with
  | invoke hrs => exact Dispatch.plan_carries hn _ _ hrs ho
  | invokeEntry => exact Dispatch.lower_carries hn _ ho
  | call => exact .refl X m

theorem moves_of_calls {d : Nat} {code : Behaviour UInt64} {next : ActionReply → Behaviour UInt64}
    {op : DispatchOp} {p : CallPlan} {values : List Value} {m₁ : Machine}
    (ho : m.Orderly (units X ++ G))
    (hr : (Nested.ofDepth (d + 1)).Reaches code m (.ask (.step (.dispatch op)) next) m₁)
    (hc : op.Calls (.ofDepth d) { m₁ with journal := [] } p values m') : Moves X m X m' := by
  have h₁ := (hr.moves (Nested.lawful_ofDepth _) ho).trans (.quiet (j := []) (.refl m₁.host) id)
  exact h₁.trans (hc.moves (Nested.lawful_ofDepth _) (h₁.orderly ho).1)

/-- Between the beginning of a native function and a moment of it, only the guards of calls within
it have come into hand. -/
theorem Moment.moves {d : Nat} {code : Behaviour UInt64} (h : Moment d code m m')
    (ho : m.Orderly (units X ++ G)) : ∃ gs, Moves X m (ofGuards gs ++ X) m' := by
  induction h generalizing X with
  | own hr => exact ⟨[], hr.moves (Nested.lawful_ofDepth _) ho⟩
  | calling hr hc => exact ⟨[], moves_of_calls ho hr hc⟩
  | @within d code inner next op p values s m m₁ m₂ m₃ m' hr hc he _ ih =>
    have h₁ := (moves_of_calls ho hr hc).trans he.moves
    obtain ⟨gs, h₂⟩ := ih (h₁.orderly ho).1
    refine ⟨gs ++ s.guards, h₁.trans ?_⟩
    simpa [ofGuards] using h₂

/-! ### What pins do for a call -/

def Heap.pinCount (h : Heap) (r : ObjRef) : Nat := ((h.cell? r).map (·.pins.toNat)).getD 0

namespace Heap.Tallied

variable {h : Heap} {gs : List Guard}

theorem pinCount_eq (ht : h.Tallied gs) (r : ObjRef) :
    h.pinCount r = (gs.map (·.ref)).count r := by
  unfold Heap.pinCount
  cases hc : h.cell? r with
  | some c => exact ht.counted r c hc
  | none =>
    symm
    rw [Option.map_none, Option.getD_none, List.count_eq_zero]
    intro hr
    obtain ⟨g, hg, rfl⟩ := List.mem_map.1 hr
    obtain ⟨c, hc', _⟩ := ht.held g hg
    rw [hc] at hc'
    cases hc'

theorem stillPinned (ht : h.Tallied gs) {g : Guard} (hg : g ∈ gs) :
    h.freeCell g.ref = .error (.stillPinned g.ref) := by
  obtain ⟨c, hc, _⟩ := ht.held g hg
  have hpos : 0 < c.pins := by
    refine UInt32.pos_iff_ne_zero.2 fun hz => ?_
    exact ht.ref_ne hc hz hg rfl
  simp [Heap.freeCell, h.get_eq_ok_iff.2 hc, hpos]

end Heap.Tallied

/-- Units and guards that are in use somewhere are told apart from those of a machine, whose pins
and guards tally. -/
structure Machine.Accounts (G : List UnitHandle) (gs : List Guard) (m : Machine) : Prop where
  orderly : m.Orderly G
  tallied : m.host.Tallied gs

namespace Machine.Accounts

variable {gs : List Guard}

theorem ofProgram (program : Program) : (Machine.ofProgram program).Accounts [] [] :=
  ⟨Machine.orderly_ofProgram program, Host.tallied_ofProgram program⟩

theorem enter (ho : m.Orderly G) (program : Program) : (m.enter program).Accounts G [] :=
  ⟨ho.enter program, Host.tallied_ofProgram program⟩

theorem moves {gs' : List Guard} (ha : m.Accounts G gs) (hm : Moves [] m (ofGuards gs') m')
    (hw : m'.host.heap.wrapped = false) : m'.Accounts G (gs' ++ gs) where
  orderly := by simpa using (hm.orderly (G := G) (by simpa using ha.orderly)).1
  tallied := by simpa using hm.tallied hw (F := gs) (by simpa using ha.tallied)

end Machine.Accounts

theorem accounts_of_calls (hn : n.Lawful) {gs : List Guard} (ha : m.Accounts G gs) (ops : List Op)
    {op : DispatchOp} {p : CallPlan} {values : List Value}
    (hc : op.Calls n { (ops.mapM (Op.answer n)).after m with journal := [] } p values m')
    (hw : m'.host.heap.wrapped = false) : m'.Accounts G gs := by
  have h₁ : Moves [] m [] _ := (answers_carries (X := []) (G := G) hn ops ha.orderly).trans
    (.quiet (j := []) (.refl _) id)
  have h₂ := hc.moves (X := []) hn (h₁.orderly (G := G) ha.orderly).1
  exact show m'.Accounts G ([] ++ gs) from ha.moves (h₁.trans h₂) hw

/-- At any moment of a native function the cells that it was handed lie where they lay, and cannot
be freed. -/
theorem CallPlan.Enters.protected {d : Nat} {gs : List Guard} {p : CallPlan} {args : List Value}
    {s : Marshalled} {code : Behaviour UInt64} {m₁ : Machine} (h : p.Enters args m s code m₁)
    (ha : m.Accounts G gs) (hm : Moment d code m₁ m') (hw : m'.host.heap.wrapped = false) :
    (∃ gs', m'.Accounts G (gs' ++ gs)) ∧
      ∀ r, .ref (some r) ∈ args → ∃ c c', m.host.heap.cell? r = some c ∧
        m'.host.heap.cell? r = some c' ∧ c'.base = c.base ∧
        m'.host.heap.freeCell r = .error (.stillPinned r) := by
  have h₁ : Moves [] m (ofGuards s.guards) m₁ := by simpa using h.moves (X := [])
  obtain ⟨gs', h₂⟩ := hm.moves (G := G) (h₁.orderly ha.orderly).1
  have hmoves : Moves [] m (ofGuards (gs' ++ s.guards)) m' :=
    h₁.trans (by simpa [ofGuards] using h₂)
  have haccounts := ha.moves hmoves hw
  refine ⟨⟨_, haccounts⟩, fun r hr => ?_⟩
  have hhanded := CallPlan.handed_marshal h.count h.handed
  have href : r ∈ s.guards.map (·.ref) := by
    rw [hhanded.guards]
    exact List.mem_filterMap.2 ⟨_, hr, rfl⟩
  obtain ⟨g, hg, rfl⟩ := List.mem_map.1 href
  have hmem : g ∈ (gs' ++ s.guards ++ gs) ++ m'.host.named := by simp [hg]
  obtain ⟨c', hc', hbase'⟩ := haccounts.tallied.heap.held g hmem
  obtain ⟨c, hc, hbase⟩ := Option.map_eq_some_iff.1 (hhanded.held g hg)
  exact ⟨c, c', hc, hc', by rw [hbase', hbase], haccounts.tallied.heap.stillPinned hmem⟩

/-- Where no native function is entered, at most pins were put on arguments and taken off again. -/
theorem Dispatch.after_call_of_not_enters (n : Nested) (p : CallPlan) (args : List Value)
    (m : Machine) (hno : ¬∃ s code m₁, p.Enters args m s code m₁) :
    let s := (p.marshal m.host.heap args).2
    ∃ heap trace, (heap = m.host.heap ∨ heap = s.heap.unpinAll s.guards) ∧
      (call n p args).after m = { m with host := { m.host with heap }, trace } := by
  intro s
  unfold call
  simp only [Work.after_bind, Work.result_host, Work.after_host]
  by_cases hloaded : m.host.isLoaded p.entry = true
  · by_cases hcount : args.length = p.entry.convention.argCount
    · simp only [hloaded, hcount, Bool.not_true, Bool.false_eq_true, ne_eq, not_true_eq_false,
        ↓reduceIte, Work.after_bind, Work.result_host, Work.after_host, Work.after_modifyHost]
      cases herror : (p.marshal m.host.heap args).1 with
      | some e => exact ⟨_, _, .inr rfl, rfl⟩
      | none =>
        cases hf : m.host.native p.func with
        | none =>
          refine ⟨s.heap.unpinAll s.guards, m.trace ++ [.called p.func s.args], .inr rfl, ?_⟩
          simp only [runNative, Work.after_bind, Work.after_trace, Work.result_host,
            Work.after_host, Machine.withHost, hf]
          rfl
        | some f =>
          exact (hno ⟨s, f s.args, _, hloaded, hcount, Prod.ext herror rfl, by rw [hf]; rfl,
            rfl⟩).elim
    · simp only [hloaded, hcount, Bool.not_true, Bool.false_eq_true, ne_eq, not_false_eq_true,
        ↓reduceIte, Work.after_pure]
      exact ⟨_, _, .inl rfl, rfl⟩
  · simp only [hloaded, Bool.not_false, ↓reduceIte, Work.after_pure]
    exact ⟨_, _, .inl rfl, rfl⟩

theorem Dispatch.guards_call_of_not_enters (n : Nested) (p : CallPlan) (args : List Value)
    (m : Machine) (hno : ¬∃ s code m₁, p.Enters args m s code m₁) :
    ((call n p args).after m).host.guards = m.host.guards := by
  obtain ⟨_, _, _, hafter⟩ := after_call_of_not_enters n p args m hno
  rw [hafter]

theorem CallPlan.Enters.after_call {p : CallPlan} {args : List Value} {s : Marshalled}
    {code : Behaviour UInt64} {m₁ : Machine} (h : p.Enters args m s code m₁) :
    (Dispatch.call n p args).after m = ((n.runCode code).after m₁).withHost
      { ((n.runCode code).after m₁).host with
        heap := ((n.runCode code).after m₁).host.heap.unpinAll s.guards } := by
  obtain ⟨f, hf, hcode⟩ := Option.map_eq_some_iff.1 h.native
  unfold Dispatch.call
  simp only [h.loaded, h.count, h.handed, Bool.not_true, Bool.false_eq_true, ne_eq,
    not_true_eq_false, ↓reduceIte, Work.after_bind, Work.result_host, Work.after_host,
    Work.after_modifyHost, Dispatch.runNative, Work.after_trace, Machine.withHost, hf, hcode]
  rw [← h.begins]
  rfl

/-- When a call returns, every cell is pinned as often as before, but for what its native function
took or dropped. -/
theorem pins_after_call (d : Nat) {gs : List Guard} (ha : m.Accounts G gs) (p : CallPlan)
    (args : List Value)
    (hw : ((Dispatch.call (.ofDepth d) p args).after m).host.heap.wrapped = false) :
    ((Dispatch.call (.ofDepth d) p args).after m).Accounts G gs ∧
      ∀ r, ((Dispatch.call (.ofDepth d) p args).after m).host.heap.pinCount r +
        (m.host.named.map (·.ref)).count r = m.host.heap.pinCount r +
          (((Dispatch.call (.ofDepth d) p args).after m).host.named.map (·.ref)).count r := by
  have hmoves := Dispatch.call_carries (X := []) (G := G) (Nested.lawful_ofDepth d) p args
    ha.orderly
  have ha' : ((Dispatch.call (.ofDepth d) p args).after m).Accounts G ([] ++ gs) :=
    ha.moves hmoves hw
  refine ⟨ha', fun r => ?_⟩
  rw [ha'.tallied.heap.pinCount_eq, ha.tallied.heap.pinCount_eq]
  simp only [List.map_append, List.count_append, List.nil_append]
  omega

/-- Pins are scoped to a call and protect it. Every host begins with accounts, and every call that
an operation of it makes is made at a machine with accounts. At each moment of the native function,
also within its calls, the machine has accounts, and what the function was handed stays where it
was. When the call returns, only what the function took or dropped itself is different. -/
theorem pins_scoped_to_call (d : Nat) :
    ((∀ program, (Machine.ofProgram program).Accounts [] []) ∧
      ∀ G m program, Machine.Orderly G m → (m.enter program).Accounts G []) ∧
    ∀ (G : List UnitHandle) (gs : List Guard) (m : Machine), m.Accounts G gs →
      (∀ (ops : List Op) (op : DispatchOp) (p : CallPlan) (values : List Value) (m' : Machine),
        op.Calls (.ofDepth d) { (ops.mapM (Op.answer (.ofDepth d))).after m with journal := [] }
          p values m' → m'.host.heap.wrapped = false → m'.Accounts G gs) ∧
      ∀ (p : CallPlan) (args : List Value),
        (∀ s code m₁ m', p.Enters args m s code m₁ → Moment d code m₁ m' →
          m'.host.heap.wrapped = false →
          (∃ gs', m'.Accounts G (gs' ++ gs)) ∧
          s.args.filterMap NativeArg.address? = args.filterMap m.host.heap.pointer? ∧
          ∀ r, .ref (some r) ∈ args → ∃ c c', m.host.heap.cell? r = some c ∧
            m'.host.heap.cell? r = some c' ∧ c'.base = c.base ∧
            m'.host.heap.freeCell r = .error (.stillPinned r)) ∧
        let m' := (Dispatch.call (.ofDepth d) p args).after m
        (m'.host.heap.wrapped = false → m'.Accounts G gs ∧
          ∀ r, m'.host.heap.pinCount r + (m.host.named.map (·.ref)).count r =
            m.host.heap.pinCount r + (m'.host.named.map (·.ref)).count r) ∧
        (∀ s code m₁, p.Enters args m s code m₁ → m₁.host.guards = m.host.guards ∧
          m'.host.guards = (((Nested.ofDepth d).runCode code).after m₁).host.guards) ∧
        ((¬∃ s code m₁, p.Enters args m s code m₁) → m'.host.guards = m.host.guards) := by
  refine ⟨⟨.ofProgram, fun G m program ho => .enter ho program⟩, fun G gs m ha => ⟨?_, ?_⟩⟩
  · intro ops op p values m' hc hw
    exact accounts_of_calls (Nested.lawful_ofDepth d) ha ops hc hw
  · intro p args
    refine ⟨fun s code m₁ m' he hm hw => ?_, pins_after_call d ha p args, ?_, ?_⟩
    · obtain ⟨haccounts, hcells⟩ := he.protected ha hm hw
      exact ⟨haccounts, (CallPlan.handed_marshal he.count he.handed).pointers, hcells⟩
    · intro s code m₁ he
      refine ⟨by rw [he.begins], ?_⟩
      rw [he.after_call]
      rfl
    · exact Dispatch.guards_call_of_not_enters _ p args m

end AccelHost
