import AccelHost.Proofs.Dealings

/-!
What a host does with its entries, told in order. `Chronicle K j m ds m'` says that from one machine
to another the host at work has done `ds`: its providers were asked, entries were looked up or
lowered, methods were compiled, by the work at hand, by operations or by programs within hooks. No
question to a provider is left out. Of entries whose units are among `K` there is nothing to tell.
-/
namespace AccelHost

def TraceEvent.isAsked : TraceEvent → Bool
  | asked .. => true
  | _ => false

def Entry.Outside (K : List UnitHandle) (e : Entry) : Prop := ∀ x, e.owner = some x → x ∉ K

/-- Nothing is done with entries. A runtime may go, or come with nothing compiled. -/
structure Plain (m m' : Machine) : Prop where
  around : Around m m'
  provided : m'.host.provided = m.host.provided
  runtime : ∀ r', m'.host.runtime = some r' →
    (∃ r, m.host.runtime = some r ∧ r'.replacements = r.replacements) ∨
      m.host.serial ≤ r'.replacements.id ∧ r'.replacements.id < m'.host.serial ∧
        r'.replacements.compiled = []
  trace : ∃ es, m'.trace = m.trace ++ es ∧ ∀ e ∈ es, e.isAsked = false
  locks : m'.host.locks = m.host.locks

/-- From a machine to another, what the host at work does with its entries. The number bounds how
deep operations of foreign code may be within one another. -/
inductive Chronicle (K : List UnitHandle) : Nat → Machine → List Dealing → Machine → Prop where
  | plain {j : Nat} {m m' : Machine} : Plain m m' → Chronicle K j m [] m'
  | trans {j : Nat} {m₁ m₂ m₃ : Machine} {ds ds' : List Dealing} :
      Chronicle K j m₁ ds m₂ → Chronicle K j m₂ ds' m₃ → Chronicle K j m₁ (ds ++ ds') m₃
  | hook {j : Nat} {m m' : Machine} {s : Session} {ds : List Dealing} :
      Chronicle K j (m.push s) ds m' → Chronicle K j m ds m'.pop
  | nested {j : Nat} {m m' : Machine} {p : Program} {ds : List Dealing} :
      Chronicle K (j + 1) (m.enter p) ds m' → Dealing.own ds = [] →
      Chronicle K (j + 1) m (ds.map .within) m'.leave
  /-- An operation is carried out. What it does itself is what it is for. -/
  | step {j depth : Nat} {m : Machine} {op : Op} {ds : List Dealing} :
      Chronicle K j m ds ((op.perform (.ofDepth depth)).after m) →
      Dealing.own ds = op.deals (.ofDepth depth) m →
      Chronicle K (j + 1) m (ds.map (.step op m)) ((op.perform (.ofDepth depth)).after m)
  /-- Something is done under a lock. -/
  | hold {j : Nat} {m m' : Machine} {l : Lock} {ds : List Dealing} :
      Chronicle K j (m.hold l) ds m' → Chronicle K j m ds (m'.withLocks m.host.locks)
  /-- The answer is known. -/
  | known {j : Nat} {m : Machine} {e : Entry} {answer : Option CodeRef} {d : Dealing} :
      e.Outside K → e.isProvided = true → m.host.provided.get? e.id = some answer →
      d.Finds m.host e answer → Chronicle K j m [d] m
  /-- The answer is not known, and the provider cannot be asked by a name with a NUL. -/
  | unnamed {j : Nat} {m : Machine} {e : Entry} {d : Dealing} :
      e.Outside K → e.isProvided = true → m.host.provided.get? e.id = none →
      '\x00' ∈ e.nativeName.toList → d.Finds m.host e none →
      Chronicle K j m [d] ((m.await (.answer e.id)).withHost
        { m.host with provided := m.host.provided.set e.id none })
  /-- The answer is not known, and the provider is asked. It may do something meanwhile. -/
  | ask {j depth : Nat} {m : Machine} {e : Entry} {provider : CodeRef} {data : Option CodeRef}
      {d : Dealing}
      {ds : List Dealing} :
      e.Outside K → e.target = .provided provider data → m.host.provided.get? e.id = none →
      '\x00' ∉ e.nativeName.toList →
      Chronicle K j { m.hold (.answer e.id) with
          trace := m.trace ++ [.asked e.id provider e.nativeName data] } ds
        ((Dispatch.askProvider (.ofDepth depth) e provider data).after (m.hold (.answer e.id))) →
      Dealing.own ds = [] →
      d.Finds m.host e ((Dispatch.nativeFunc (.ofDepth depth) e).result m) →
      Chronicle K j m (.asked e :: ds ++ [d]) ((Dispatch.nativeFunc (.ofDepth depth) e).after m)
  /-- A method is compiled already. -/
  | cached {j : Nat} {m : Machine} {r : Runtime} {method : Method} :
      m.host.runtime = some r → r.replacements.id < m.host.serial →
      method ∈ r.replacements.compiled.keys →
      Chronicle K j m [.compiled r.replacements.id method] (m.await (.calls r.replacements.id))
  /-- An entry is lowered while the compiled calls are locked, and its call is kept with its
  replacements if they are in use still. -/
  | keep {j : Nat} {m m' : Machine} {rs : Replacements} {method : Method} {plan : CallPlan}
      {ds : List Dealing} :
      rs.id < m.host.serial → Chronicle K j (m.hold (.calls rs.id)) ds m' →
      Chronicle K j m (ds ++ [.compiled rs.id method])
        ((m'.withHost (m'.host.keep rs method plan)).withLocks m.host.locks)

variable {K K' : List UnitHandle} {j : Nat} {m m' : Machine} {ds : List Dealing}

theorem Entry.Outside.mono {e : Entry} (he : e.Outside K) (hK : ∀ x ∈ K', x ∈ K) :
    e.Outside K' := fun x hx hmem => he x hx (hK x hmem)

namespace Plain

theorem refl (m : Machine) : Plain m m :=
  ⟨.refl m, rfl, fun r hr => .inl ⟨r, hr, rfl⟩, ⟨[], by simp, by simp⟩, rfl⟩

theorem of_eq (ha : Around m m') (hp : m'.host.provided = m.host.provided)
    (hr : m'.host.runtime = m.host.runtime) (ht : m'.trace = m.trace)
    (hl : m'.host.locks = m.host.locks) : Plain m m' :=
  ⟨ha, hp, fun r hr' => .inl ⟨r, by rw [← hr, hr'], rfl⟩, ⟨[], by simp [ht], by simp⟩, hl⟩

theorem await (m : Machine) (l : Lock) : Plain m (m.await l) :=
  .of_eq { Around.refl m with stuck := Machine.stuck_await } rfl rfl rfl rfl

theorem event {e : TraceEvent} (he : e.isAsked = false) :
    Plain m { m with trace := m.trace ++ [e] } where
  around := { Around.refl m with }
  provided := rfl
  runtime r hr := .inl ⟨r, hr, rfl⟩
  trace := ⟨[e], rfl, fun e' he' => by rw [List.mem_singleton.1 he', he]⟩
  locks := rfl

end Plain

namespace Dispatch

variable {n : Nested} {e : Entry} {provider : CodeRef} {data : Option CodeRef}

theorem nativeFunc_of_provided (ht : e.target = .provided provider data)
    (hp : m.host.provided.get? e.id = none) :
    let asking := Work.holding (.answer e.id) (askProvider n e provider data)
    let m₁ := asking.after m
    let answer := (m₁.host.provided.get? e.id).getD (asking.result m)
    (nativeFunc n e).result m = answer ∧ (nativeFunc n e).after m =
      m₁.withHost { m₁.host with provided := m₁.host.provided.set e.id answer } := by
  simp only [nativeFunc, ht, Work.result_bind, Work.after_bind, Work.result_host, Work.after_host,
    hp, Work.after_modifyHost, Work.result_pure, Work.after_pure, and_self]

/-- A provider is not asked by a name with a NUL. -/
theorem nativeFunc_of_unnamed (ht : e.target = .provided provider data)
    (hp : m.host.provided.get? e.id = none) (hname : '\x00' ∈ e.nativeName.toList) :
    (nativeFunc n e).result m = none ∧ (nativeFunc n e).after m =
      (m.await (.answer e.id)).withHost
        { m.host with provided := m.host.provided.set e.id none } := by
  have hask : askProvider n e provider data = Pure.pure none := by simp [askProvider, hname]
  have hgiven : (Work.holding (.answer e.id) (Pure.pure none : Work (Option CodeRef))).after m =
      m.await (.answer e.id) := rfl
  obtain ⟨hresult, hafter⟩ := nativeFunc_of_provided (n := n) ht hp
  rw [hask, hgiven] at hresult hafter
  simp only [Machine.host_await, hp, Option.getD_none, Work.result_holding,
    Work.result_pure] at hresult hafter
  exact ⟨hresult, hafter⟩

theorem known_of_nativeFunc (he : e.isProvided = true) :
    ((nativeFunc n e).after m).host.provided.get? e.id = some ((nativeFunc n e).result m) := by
  cases ht : e.target with
  | direct => simp [Entry.isProvided, ht] at he
  | provided provider data =>
    cases hp : m.host.provided.get? e.id with
    | some answer =>
      simp only [nativeFunc, ht, Work.result_bind, Work.after_bind, Work.result_host,
        Work.after_host, hp, Work.result_pure, Work.after_pure]
    | none =>
      obtain ⟨hresult, hafter⟩ := nativeFunc_of_provided (n := n) ht hp
      rw [hresult, hafter]
      exact Keyed.get?_set_self _ _ _

end Dispatch

/-- The first answer to become known is kept. -/
theorem Around.provide (m : Machine) (id : EntryId) (answer : Option CodeRef) :
    Around m (m.withHost { m.host with
      provided := m.host.provided.set id ((m.host.provided.get? id).getD answer) }) := by
  refine { Around.refl m with provided := fun id' a ha => ?_ }
  cases hp : m.host.provided.get? id with
  | none => exact Keyed.get?_set_of_none hp ha
  | some first =>
    simp only [Machine.withHost, Option.getD_some, Keyed.set_eq_self hp]
    exact ha

theorem Around.hold (m : Machine) (l : Lock) : Around m (m.hold l) :=
  { Around.refl m with stuck := Machine.stuck_hold }

theorem Around.withLocks (m : Machine) (locks : List Lock) : Around m (m.withLocks locks) :=
  { Around.refl m with }

namespace Chronicle

theorem refl (K : List UnitHandle) (m : Machine) : Chronicle K j m [] m := .plain (.refl m)

theorem mono (h : Chronicle K j m ds m') (hK : ∀ x ∈ K', x ∈ K) : Chronicle K' j m ds m' := by
  induction h with
  | plain hp => exact .plain hp
  | trans _ _ ih₁ ih₂ => exact .trans ih₁ ih₂
  | hook _ ih => exact .hook ih
  | nested _ hown ih => exact .nested ih hown
  | step _ hown ih => exact .step ih hown
  | hold _ ih => exact .hold ih
  | known he ht hp hd => exact .known (he.mono hK) ht hp hd
  | unnamed he ht hp hn hd => exact .unnamed (he.mono hK) ht hp hn hd
  | ask he ht hp hn _ hown hd ih => exact .ask (he.mono hK) ht hp hn ih hown hd
  | cached hr hid hm => exact .cached hr hid hm
  | keep hid _ ih => exact .keep hid ih

theorem deepen (h : Chronicle K j m ds m') : Chronicle K (j + 1) m ds m' := by
  induction h with
  | plain hp => exact .plain hp
  | trans _ _ ih₁ ih₂ => exact .trans ih₁ ih₂
  | hook _ ih => exact .hook ih
  | nested _ hown ih => exact .nested ih hown
  | step _ hown ih => exact .step ih hown
  | hold _ ih => exact .hold ih
  | known he ht hp hd => exact .known he ht hp hd
  | unnamed he ht hp hn hd => exact .unnamed he ht hp hn hd
  | ask he ht hp hn _ hown hd ih => exact .ask he ht hp hn ih hown hd
  | cached hr hid hm => exact .cached hr hid hm
  | keep hid _ ih => exact .keep hid ih

/-- Where no operation may be carried out, all that is done is the work's own. -/
theorem own_eq (h : Chronicle K 0 m ds m') : Dealing.own ds = ds := by
  generalize hj : 0 = j at h
  induction h with
  | plain => rfl
  | trans _ _ ih₁ ih₂ => rw [Dealing.own_append, ih₁ hj, ih₂ hj]
  | hook _ ih | hold _ ih => exact ih hj
  | nested | step => cases hj
  | known _ _ _ hd | unnamed _ _ _ _ hd => exact Dealing.own_cons_of_isOwn hd.isOwn
  | ask _ _ _ _ _ _ hd ih =>
    rw [Dealing.own_append, Dealing.own_cons_of_isOwn rfl,
      Dealing.own_cons_of_isOwn hd.isOwn, ih hj]
    rfl
  | cached => rfl
  | keep _ _ ih =>
    rw [Dealing.own_append, ih hj]
    rfl

theorem around (h : Chronicle K j m ds m') : Around m m' := by
  induction h with
  | plain hp => exact hp.around
  | trans _ _ ih₁ ih₂ => exact ih₁.trans ih₂
  | hook _ ih => exact ih.of_hook
  | nested _ _ ih => exact ih.of_nested
  | step _ _ ih => exact ih
  | @hold _ m _ _ _ _ ih => exact (Around.hold m _).trans (ih.trans (.withLocks _ _))
  | known => exact .refl _
  | @unnamed _ m e _ _ _ hp =>
    have hprovide := Around.provide (m.await (.answer e.id)) e.id none
    rw [Machine.host_await, hp] at hprovide
    exact (Plain.await m _).around.trans hprovide
  | @ask _ _ m e provider data _ _ _ ht hp _ _ _ _ ih =>
    obtain ⟨-, hafter⟩ := Dispatch.nativeFunc_of_provided ht hp
    have htold : Around (m.hold (.answer e.id)) { m.hold (.answer e.id) with
        trace := m.trace ++ [.asked e.id provider e.nativeName data] } := { Around.refl _ with }
    rw [hafter]
    exact (Around.hold m _).trans (htold.trans (ih.trans ((Around.withLocks _ _).trans
      (.provide _ _ _))))
  | cached => exact (Plain.await _ _).around
  | @keep _ m m' rs method plan _ _ _ ih =>
    refine (Around.hold m _).trans (ih.trans (.trans ?_ (.withLocks _ _)))
    refine .of_modifyReplacements m' (fun s => ?_) fun s => ?_
    · split <;> rfl
    · split <;> rfl

theorem locks_eq (h : Chronicle K j m ds m') : m'.host.locks = m.host.locks := by
  induction h with
  | plain hp => exact hp.locks
  | trans _ _ ih₁ ih₂ => exact ih₂.trans ih₁
  | hook _ ih => exact ih
  | nested hc => rw [hc.around.waited_leave.1.rest]
  | step _ _ ih => exact ih
  | ask _ ht hp =>
    obtain ⟨-, hafter⟩ := Dispatch.nativeFunc_of_provided ht hp
    rw [hafter]
    rfl
  | hold | known | unnamed | cached | keep => rfl

end Chronicle

end AccelHost
