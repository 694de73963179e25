import AccelHost.Proofs.Chronicle

/-!
Work with a chronicle. `Recounts K j m os w P` says that work `w`, begun at a machine, has a
chronicle in which the units `K` do not occur, that it does just `os` with entries itself, and that
`P` holds of its result and final machine. Work that `Records K j m w P` does nothing with entries
itself. What keeps the units out of a chronicle is that no entry can be got at that is theirs,
neither by a name nor among those that are published.
-/
namespace AccelHost

open Holding

namespace Host

/-- The units that wait for the second phase of their startup. -/
def pendingUnits (h : Host) : List UnitHandle := h.pending.elim [] Registry.handles

/-- What tells whether an entry can be got at, and what it comes to. -/
def lore (h : Host) := (h.provided, h.runtime, h.entries, h.pending, h.locks)

end Host

/-- A machine in order, while some units are in hand, and others in secret: no named entry is of one
of these, nor of one that is pending. -/
structure Machine.Discreet (G K : List UnitHandle) (m : Machine) : Prop where
  orderly : m.Orderly (G ++ K)
  names : ∀ name e x, (name, e) ∈ m.host.entries → e.owner = some x →
    x < m.nextHandle ∧ x ∉ K ∧ x ∉ m.host.pendingUnits

variable {α β : Type} {G K : List UnitHandle} {m m' : Machine} {n : Nested} {j : Nat}

namespace Machine.Discreet

theorem ofProgram (p : Program) : (Machine.ofProgram p).Discreet [] [] :=
  ⟨Machine.orderly_ofProgram p, by simp [Machine.ofProgram, Host.ofProgram]⟩

/-- Names are as before, of entries whose units were declared before. -/
theorem of_names (hd : m.Discreet G K) {G' : List UnitHandle} (ho : m'.Orderly (G' ++ K))
    (he : m'.host.entries = m.host.entries) (hp : ∀ x ∈ m'.host.pendingUnits,
      x ∈ m.host.pendingUnits ∨ x ∈ K) (hn : m.nextHandle ≤ m'.nextHandle) :
    m'.Discreet G' K := by
  refine ⟨ho, fun name e x hmem hx => ?_⟩
  rw [he] at hmem
  obtain ⟨hlt, hK, hpending⟩ := hd.names name e x hmem hx
  exact ⟨Nat.lt_of_lt_of_le hlt hn, hK, fun hmem => (hp x hmem).elim hpending hK⟩

theorem of_lore (hd : m.Discreet G K) {G' : List UnitHandle} (ho : m'.Orderly (G' ++ K))
    (hl : m'.host.lore = m.host.lore) (hn : m.nextHandle ≤ m'.nextHandle) : m'.Discreet G' K := by
  simp only [Host.lore, Prod.mk.injEq] at hl
  refine hd.of_names ho hl.2.2.1 (fun x hx => .inl ?_) hn
  rwa [Host.pendingUnits, ← hl.2.2.2.1]

theorem told (hd : m.Discreet G K) (trace : List TraceEvent) :
    ({ m with trace } : Machine).Discreet G K :=
  ⟨hd.orderly.of_same rfl (.refl _) rfl, hd.names⟩

theorem enter (hd : m.Discreet G K) (p : Program) : (m.enter p).Discreet G K :=
  ⟨hd.orderly.enter p, by simp [Machine.enter, Host.ofProgram]⟩

/-- Published entries are of units that are neither in secret nor pending. -/
theorem of_published (hd : m.Discreet G K) {rs : Replacements} {e : Entry} {x : UnitHandle}
    (hrs : m.host.replacements? = some rs) (he : e ∈ rs.published.entries)
    (hx : e.owner = some x) : x < m.nextHandle ∧ x ∉ K ∧ x ∉ m.host.pendingUnits := by
  have hho := hd.orderly.host
  have howner : x ∈ m.host.runtime.elim [] (fun r => r.registry.handles) ++
      m.host.bare.handles := by
    unfold Host.replacements? at hrs
    cases hr : m.host.runtime with
    | some r =>
      rw [hr] at hrs
      cases hrs
      have hserves := hho.runtime r hr
      rw [hserves.published] at he
      obtain ⟨y, hy, hown⟩ := hserves.registry.1 e he
      cases hx.symm.trans hown
      exact List.mem_append_left _ hy
    | none =>
      rw [hr] at hrs
      obtain ⟨y, hy, hown⟩ := (hho.exposed rs hrs).owned e he
      cases hx.symm.trans hown
      exact List.mem_append_right _ hy
  have hheld : x ∈ m.held := List.mem_append_left _ (List.mem_append_right _ howner)
  refine ⟨hd.orderly.declared x (List.mem_append_right _ hheld), fun hK => ?_, fun hp => ?_⟩
  · exact hd.orderly.not_mem_held (List.mem_append_right _ hK) hheld
  · have hnodup := (List.nodup_append.1 hd.orderly.distinct).2.1
    have hhost : m.host.held.Nodup := (List.nodup_append.1 hnodup).1
    exact (List.nodup_append.1 hhost).2.2 x hp x howner rfl

theorem outside_of_name (hd : m.Discreet G K) {name : Label} {e : Entry}
    (he : m.host.entries.get? name = some e) : e.Outside K := fun x hx =>
  (hd.names name e x (Keyed.mem_of_get? he) hx).2.1

theorem outside_of_published (hd : m.Discreet G K) {rs : Replacements} {method : Method}
    {e : Entry} (hrs : m.host.replacements? = some rs) (he : rs.published.find? method = some e) :
    e.Outside K := fun _ hx => (hd.of_published hrs (Registry.mem_of_find? he) hx).2.1

theorem name (hd : m.Discreet G K) {l : Label} {e : Entry} (he : ∀ x, e.owner = some x →
      x < m.nextHandle ∧ x ∉ K ∧ x ∉ m.host.pendingUnits) :
    (m.withHost { m.host with entries := m.host.entries.set l e }).Discreet G K := by
  refine ⟨hd.orderly.of_same rfl { Host.Same.refl m.host with } rfl, fun l' f x hmem hx => ?_⟩
  rcases Keyed.mem_set hmem with ⟨-, rfl⟩ | hmem
  · exact he x hx
  · exact hd.names l' f x hmem hx

theorem withHeap (hd : m.Discreet G K) (heap : Heap) :
    (m.withHost { m.host with heap }).Discreet G K ∧ Plain m (m.withHost { m.host with heap }) :=
  ⟨hd.of_lore (hd.orderly.of_same rfl { Host.Same.refl m.host with } rfl) rfl (Nat.le_refl _),
    .of_eq { Around.refl m with } rfl rfl rfl rfl⟩

theorem await (hd : m.Discreet G K) (l : Lock) : (m.await l).Discreet G K :=
  ⟨hd.orderly.of_same rfl (.refl _) rfl, hd.names⟩

theorem hold (hd : m.Discreet G K) (l : Lock) : (m.hold l).Discreet G K :=
  ⟨hd.orderly.of_same rfl { Host.Same.refl m.host with } rfl, hd.names⟩

theorem withLocks (hd : m.Discreet G K) (locks : List Lock) : (m.withLocks locks).Discreet G K :=
  ⟨hd.orderly.of_same rfl { Host.Same.refl m.host with } rfl, hd.names⟩

end Machine.Discreet

/-! ### Work -/

/-- Work that has a chronicle: what it does with entries itself, and what holds of its result and
its final machine. -/
def Recounts (K : List UnitHandle) (j : Nat) (m : Machine) (os : List Dealing) (w : Work α)
    (P : α → Machine → Prop) : Prop :=
  P (w.result m) (w.after m) ∧ ∃ ds, Chronicle K j m ds (w.after m) ∧ Dealing.own ds = os

abbrev Records (K : List UnitHandle) (j : Nat) (m : Machine) (w : Work α)
    (P : α → Machine → Prop) : Prop :=
  Recounts K j m [] w P

abbrev Stays (G K : List UnitHandle) : α → Machine → Prop := fun _ m' => m'.Discreet G K

namespace Recounts

variable {w : Work α} {f : α → Work β} {P P' : α → Machine → Prop} {Q : β → Machine → Prop}
  {os : List Dealing}

/-- One piece of work after another that does nothing with entries itself. -/
theorem bind (h : Recounts K j m os w P)
    (hf : P (w.result m) (w.after m) → Records K j (w.after m) (f (w.result m)) Q) :
    Recounts K j m os (w >>= f) Q := by
  obtain ⟨hp, ds, hds, hos⟩ := h
  obtain ⟨hq, ds', hds', hos'⟩ := hf hp
  exact ⟨hq, ds ++ ds', hds.trans hds', by rw [Dealing.own_append, hos, hos', List.append_nil]⟩

theorem pure {a : α} (h : P a m) : Records K j m (Pure.pure a) P := ⟨h, [], .refl K m, rfl⟩

theorem pure_bind {a : α} (h : Recounts K j m os (f a) Q) :
    Recounts K j m os (Pure.pure a >>= f) Q := h

theorem imp (h : Recounts K j m os w P) (hP : ∀ a m', P a m' → P' a m') : Recounts K j m os w P' :=
  ⟨hP _ _ h.1, h.2⟩

theorem mono {K' : List UnitHandle} (h : Recounts K j m os w P) (hK : ∀ x ∈ K', x ∈ K) :
    Recounts K' j m os w P :=
  ⟨h.1, h.2.imp fun _ hds => ⟨hds.1.mono hK, hds.2⟩⟩

theorem deepen (h : Recounts K j m os w P) : Recounts K (j + 1) m os w P :=
  ⟨h.1, h.2.imp fun _ hds => ⟨hds.1.deepen, hds.2⟩⟩

theorem host {f : Host → Work β} (hf : Recounts K j m os (f m.host) Q) :
    Recounts K j m os (Work.host >>= f) Q := hf

theorem modifyHost {g : Host → Host} {f : Unit → Work β} (hp : Plain m (m.withHost (g m.host)))
    (hf : Recounts K j (m.withHost (g m.host)) os (f ()) Q) :
    Recounts K j m os (Work.modifyHost g >>= f) Q := by
  obtain ⟨hq, ds, hds, hos⟩ := hf
  exact ⟨hq, [] ++ ds, Chronicle.trans (.plain hp) hds, hos⟩

theorem trace {e : TraceEvent} {f : Unit → Work β} (he : e.isAsked = false)
    (hf : Recounts K j { m with trace := m.trace ++ [e] } os (f ()) Q) :
    Recounts K j m os (Work.trace e >>= f) Q := by
  obtain ⟨hq, ds, hds, hos⟩ := hf
  exact ⟨hq, [] ++ ds, Chronicle.trans (.plain (.event he)) hds, hos⟩

theorem await {l : Lock} {f : Unit → Work β} (hf : Recounts K j (m.await l) os (f ()) Q) :
    Recounts K j m os (Work.await l >>= f) Q := by
  obtain ⟨hq, ds, hds, hos⟩ := hf
  exact ⟨hq, [] ++ ds, Chronicle.trans (.plain (.await m l)) hds, hos⟩

/-- Work that is carried by moves and does nothing with entries. -/
theorem of_carries (hd : m.Discreet G K) (hc : Carries (G ++ K) [] m w fun _ => [])
    (hl : (w.after m).host.lore = m.host.lore) (ht : (w.after m).trace = m.trace) :
    Records K j m w (Stays G K) := by
  have hmoves := hc hd.orderly
  have hlore := hl
  simp only [Host.lore, Prod.mk.injEq] at hlore
  refine ⟨hd.of_lore (hmoves.orderly hd.orderly).1 hl hmoves.around.nextHandle, [], .plain ?_, rfl⟩
  exact .of_eq hmoves.around hlore.1 hlore.2.1 ht hlore.2.2.2.2

theorem note (hd : m.Discreet G K) (e : Event) : Records K j m (Work.note e) (Stays G K) :=
  .of_carries hd (.note e) rfl rfl

theorem fresh (hd : m.Discreet G K) : Records K j m Work.fresh (Stays G K) :=
  .of_carries hd .fresh rfl rfl

theorem answered (hd : m.Discreet G K) (c : Callback) :
    Records K j m (Work.answered c) (Stays G K) := by
  have hafter : ((Work.answered c).after m).host.lore = m.host.lore ∧
      ((Work.answered c).after m).trace = m.trace := by
    unfold Work.answered
    rw [Work.after_bind, Work.result_get, Work.after_get]
    split
    · rename_i reply host waiting hc
      cases waited_of_answerInnermost hc with
      | cons hh _ =>
        have hlore : host.lore = m.host.lore := by rw [hh.rest, Host.lore, Host.lore]
        exact ⟨hlore, rfl⟩
    · exact ⟨rfl, rfl⟩
  exact .of_carries hd (.answered c) hafter.1 hafter.2

theorem callback (hd : m.Discreet G K) (c : Callback) :
    Records K j m (Work.callback c) (Stays G K) := by
  unfold Work.callback
  split
  · exact .bind (.note hd _) fun hd => .answered hd c
  · exact .answered hd c

theorem journaled (hd : m.Discreet G K)
    (h : ∀ m : Machine, m.Discreet G K → Records K j m w (Stays G K)) :
    Records K j m (Work.journaled w) (Stays G K) := by
  have hjournal : ∀ {m : Machine} (journal : List Event), m.Discreet G K →
      ({ m with journal } : Machine).Discreet G K ∧ Plain m { m with journal } := by
    intro m j hd
    exact ⟨⟨hd.orderly.of_same rfl (.refl _) rfl, hd.names⟩,
      .of_eq { Around.refl m with } rfl rfl rfl rfl⟩
  obtain ⟨hd₁, hp₁⟩ := hjournal [] hd
  obtain ⟨hd₂, ds, hds, hos⟩ := h _ hd₁
  obtain ⟨hd₃, hp₂⟩ := hjournal m.journal hd₂
  exact ⟨hd₃, [] ++ (ds ++ []), Chronicle.trans (.plain hp₁) (hds.trans (.plain hp₂)),
    by simpa using hos⟩

end Recounts

/-! ### Foreign code -/

/-- Operations and programs within foreign code, at some depth, that have chronicles. -/
structure Nested.Recorded (n : Nested) (j : Nat) : Prop where
  depth : n = .ofDepth j
  step : ∀ op G K m, Machine.Discreet G K m → Records K j m (n.step op) (Stays G K)
  run : ∀ p G K m, Machine.Discreet G K m → Records K j m (n.run p) (Stays G K)

namespace Nested.Recorded

theorem lawful (hn : n.Recorded j) : n.Lawful := by
  rw [hn.depth]
  exact lawful_ofDepth j

theorem answer (hn : n.Recorded j) (hd : m.Discreet G K) (a : Action) :
    Records K j m (n.answer a) (Stays G K) := by
  cases a with
  | call c => exact .bind (.callback hd c) .pure
  | step op => exact .bind (hn.step op G K m hd) .pure
  | run p => exact .bind (hn.run p G K m hd) .pure
  | note e => exact .bind (.note hd e) .pure
  | store address width value =>
    refine .of_carries hd (hn.lawful.answer _) ?_ ?_
    all_goals
      simp only [Nested.answer, Work.after_bind, Work.result_host, Work.after_host]
      split <;> rfl
  | load | locate | addressOf | markOf => exact .pure hd

/-- Foreign code has a chronicle. -/
theorem runCode (hn : n.Recorded j) (hd : m.Discreet G K) (code : Behaviour α) :
    Records K j m (n.runCode code) (Stays G K) := by
  induction code generalizing m with
  | done a => exact .pure hd
  | ask request next ih => exact .bind (hn.answer hd request) fun hd => ih _ hd

end Nested.Recorded

end AccelHost
