import AccelHost.Proofs.Alongside

/-!
Work on two machines that are the same but for places, where the second may collect on its way. It
comes to the same, and leaves two such machines. Native code is followed through its arguments.
-/
namespace AccelHost

/-- An event but for the places that arguments of native code point to. -/
def TraceEvent.unplaced : TraceEvent → TraceEvent
  | .called func args => .called func (args.map NativeArg.unplaced)
  | e => e

def Machine.unplaced (m : Machine) : Machine :=
  { m with host := m.host.unplaced, trace := m.trace.map TraceEvent.unplaced }

/-- Two machines that are the same but for places. Code collects in the second only. -/
structure Machine.Beside (b : Bodies) (gs gs' : List Guard) (m m' : Machine) : Prop where
  same : m'.unplaced = m.unplaced
  left : m.host.Settled b false gs
  right : m'.host.Settled b true gs'

/-- Work on two machines side by side, with results in a relation. -/
def Abreast {α β : Type} (b : Bodies) (gs gs' : List Guard) (m m' : Machine) (w : Work α)
    (w' : Work β) (R : α → β → Prop) : Prop :=
  m.Beside b gs gs' m' →
    R (w.result m) (w'.result m') ∧ (w.after m).Beside b gs gs' (w'.after m')

abbrev Even {α : Type} (b : Bodies) (gs gs' : List Guard) (m m' : Machine) (w w' : Work α) : Prop :=
  Abreast b gs gs' m m' w w' Eq

namespace Machine.Beside

variable {b : Bodies} {gs gs' : List Guard} {m m' : Machine}

theorem host (hb : m.Beside b gs gs' m') : m'.host.unplaced = m.host.unplaced :=
  congrArg Machine.host hb.same

theorem withHost {ks ks' : List Guard} {h h' : Host} (hb : m.Beside b gs gs' m')
    (he : h'.unplaced = h.unplaced) (hs : h.Settled b false ks) (hs' : h'.Settled b true ks') :
    (m.withHost h).Beside b ks ks' (m'.withHost h') where
  same := by
    have hsame : m'.unplaced.withHost h'.unplaced = m.unplaced.withHost h.unplaced := by
      rw [hb.same, he]
    exact hsame
  left := hs
  right := hs'

theorem withJournal (hb : m.Beside b gs gs' m') (journal : List Event) :
    ({ m with journal } : Machine).Beside b gs gs' { m' with journal } where
  same := by
    have hsame : ({ m'.unplaced with journal } : Machine) = { m.unplaced with journal } := by
      rw [hb.same]
    exact hsame
  left := hb.left
  right := hb.right

theorem journal (hb : m.Beside b gs gs' m') : m'.journal = m.journal := by
  have hsame : m'.unplaced.journal = m.unplaced.journal := by rw [hb.same]
  exact hsame

theorem withEvent {e e' : TraceEvent} (hb : m.Beside b gs gs' m') (he : e'.unplaced = e.unplaced) :
    ({ m with trace := m.trace ++ [e] } : Machine).Beside b gs gs'
      { m' with trace := m'.trace ++ [e'] } where
  same := by
    have hsame : ({ m'.unplaced with trace := m'.unplaced.trace ++ [e'.unplaced] } : Machine) =
        { m.unplaced with trace := m.unplaced.trace ++ [e.unplaced] } := by rw [hb.same, he]
    simpa [Machine.unplaced] using hsame
  left := hb.left
  right := hb.right

theorem locks (hb : m.Beside b gs gs' m') : m'.host.locks = m.host.locks :=
  Host.same (f := Host.locks) (fun _ => rfl) hb.host

theorem await (hb : m.Beside b gs gs' m') (l : Lock) :
    (m.await l).Beside b gs gs' (m'.await l) where
  same := by
    have hsame : m'.unplaced.await l = m.unplaced.await l := by rw [hb.same]
    exact hsame
  left := hb.left
  right := hb.right

theorem withLocks (hb : m.Beside b gs gs' m') (locks : List Lock) :
    (m.withLocks locks).Beside b gs gs' (m'.withLocks locks) := by
  have hleft : ({ m.host with locks } : Host).ground = m.host.ground := rfl
  have hright : ({ m'.host with locks } : Host).ground = m'.host.ground := rfl
  exact hb.withHost (Host.unplaced_congr (g := fun h => { h with locks }) (fun _ => rfl) hb.host)
    (hb.left.of_ground hleft).1 (hb.right.of_ground hright).1

theorem hold (hb : m.Beside b gs gs' m') (l : Lock) :
    (m.hold l).Beside b gs gs' (m'.hold l) := by
  have hheld := (hb.await l).withLocks (l :: m.host.locks)
  nth_rewrite 2 [← hb.locks] at hheld
  exact hheld

end Machine.Beside

namespace Abreast

variable {α β γ δ : Type} {b : Bodies} {gs gs' : List Guard} {m m' : Machine} {n : Nested}
  {w : Work α} {w' : Work β} {f : α → Work γ} {f' : β → Work δ} {R : α → β → Prop}
  {S : γ → δ → Prop}

theorem pure {x : α} {y : β} (h : R x y) :
    Abreast b gs gs' m m' (Pure.pure x) (Pure.pure y) R := fun hb => ⟨h, hb⟩

theorem of (h : m.Beside b gs gs' m' → Abreast b gs gs' m m' w w' R) :
    Abreast b gs gs' m m' w w' R := fun hb => h hb hb

theorem bind (h : Abreast b gs gs' m m' w w' R)
    (hf : ∀ x y m m', R x y → Abreast b gs gs' m m' (f x) (f' y) S) :
    Abreast b gs gs' m m' (w >>= f) (w' >>= f') S := fun hb => by
  obtain ⟨hr, hb₁⟩ := h hb
  exact hf _ _ _ _ hr hb₁

theorem bind_same {w w' : Work α} {f' : α → Work δ} (h : Even b gs gs' m m' w w')
    (hf : ∀ x m m', Abreast b gs gs' m m' (f x) (f' x) S) :
    Abreast b gs gs' m m' (w >>= f) (w' >>= f') S :=
  .bind h fun x _ m m' hx => hx ▸ hf x m m'

theorem host {f : Host → Work γ} {f' : Host → Work δ}
    (hf : m'.host.unplaced = m.host.unplaced → Abreast b gs gs' m m' (f m.host) (f' m'.host) S) :
    Abreast b gs gs' m m' (Work.host >>= f) (Work.host >>= f') S := fun hb => hf hb.host hb

theorem modifyHost {g g' : Host → Host} {f : Unit → Work γ} {f' : Unit → Work δ}
    (hg : m'.host.unplaced = m.host.unplaced → (g' m'.host).unplaced = (g m.host).unplaced)
    (hground : (g m.host).ground = m.host.ground) (hground' : (g' m'.host).ground = m'.host.ground)
    (hf : ∀ m m', Abreast b gs gs' m m' (f ()) (f' ()) S) :
    Abreast b gs gs' m m' (Work.modifyHost g >>= f) (Work.modifyHost g' >>= f') S := fun hb =>
  hf _ _ (hb.withHost (hg hb.host) (hb.left.of_ground hground).1 (hb.right.of_ground hground').1)

theorem modifyHost_same {g : Host → Host} {f : Unit → Work γ} {f' : Unit → Work δ}
    (hg : ∀ h, (g h).unplaced = g h.unplaced) (hground : ∀ h, (g h).ground = h.ground)
    (hf : ∀ m m', Abreast b gs gs' m m' (f ()) (f' ()) S) :
    Abreast b gs gs' m m' (Work.modifyHost g >>= f) (Work.modifyHost g >>= f') S :=
  .modifyHost (Host.unplaced_congr hg) (hground _) (hground _) hf

theorem trace {f : Unit → Work γ} {f' : Unit → Work δ} {e : TraceEvent}
    (hf : ∀ m m', Abreast b gs gs' m m' (f ()) (f' ()) S) :
    Abreast b gs gs' m m' (Work.trace e >>= f) (Work.trace e >>= f') S := fun hb =>
  hf _ _ (hb.withEvent rfl)

/-- What is locked has no place, so both machines wait for a lock or neither does. -/
theorem await (l : Lock) : Even b gs gs' m m' (Work.await l) (Work.await l) := fun hb =>
  ⟨rfl, hb.await l⟩

theorem holding {l : Lock} {w w' : Work α} (h : Even b gs gs' (m.hold l) (m'.hold l) w w') :
    Even b gs gs' m m' (Work.holding l w) (Work.holding l w') := fun hb => by
  obtain ⟨hr, hb₁⟩ := h (hb.hold l)
  simp only [Work.result_holding, Work.after_holding, hb.locks]
  exact ⟨hr, hb₁.withLocks _⟩

theorem fresh : Even b gs gs' m m' Work.fresh Work.fresh := by
  refine .host fun he => ?_
  have hserial : m'.host.serial = m.host.serial := Host.same (f := Host.serial) (fun _ => rfl) he
  rw [hserial]
  exact .modifyHost_same (fun _ => rfl) (fun _ => rfl) fun _ _ => .pure rfl

theorem journaled {w w' : Work α} {R : α → α → Prop}
    (h : Abreast b gs gs' { m with journal := [] } { m' with journal := [] } w w' R) :
    Abreast b gs gs' m m' (Work.journaled w) (Work.journaled w')
      (fun x y => R x.1 y.1 ∧ y.2 = x.2) := fun hb => by
  obtain ⟨hr, hb₁⟩ := h (hb.withJournal [])
  have hafter : (Work.journaled w').after m' =
      { w'.after { m' with journal := [] } with journal := m.journal } := by
    rw [← hb.journal]
    rfl
  rw [hafter]
  exact ⟨⟨hr, hb₁.journal⟩, hb₁.withJournal m.journal⟩

end Abreast

namespace Machine.Beside

variable {b : Bodies} {gs gs' : List Guard} {m m' : Machine} {n : Nested}

theorem relocate_right (hb : m.Beside b gs gs' m') :
    m.Beside b gs gs' (m'.withHost m'.host.relocate.2) := by
  have hheap : m'.host.heap.Elsewhere m'.host.relocate.2.heap := Heap.elsewhere_relocate
  have hhost : m'.host.relocate.2.unplaced = m'.host.unplaced :=
    Host.unplaced_heap (h := m'.host) rfl hheap
  exact hb.withHost (hhost.trans hb.host) hb.left (hb.right.heapOp .relocate).1

theorem collect_right (hn : n.Collects) (hb : m.Beside b gs gs' m') :
    m.Beside b gs gs' ((n.answer (.step (.heap .relocate))).after m') := by
  have hafter : (n.answer (.step (.heap .relocate))).after m' =
    (n.step (.heap .relocate)).after m' := rfl
  rw [hafter]
  rcases hn m' with h | h
  · rwa [h]
  · rw [h]
    exact hb.relocate_right

end Machine.Beside

/-! ### Bodies of native code -/

namespace Nested

variable {α : Type} {m : Machine} {next : ActionReply → Behaviour α} {address : UInt64}
  {width : Nat}

theorem run_load (n : Nested) {w : UInt64} (hw : m.host.heap.load? address.toNat width = some w) :
    (n.runCode (.ask (.load address width) next)).run m =
      (n.runCode (next (.word (some w)))).run m := by
  rw [← hw]
  rfl

theorem after_store (n : Nested) {value : UInt64} {heap : Heap}
    (hs : m.host.heap.store? address.toNat width value = some heap) :
    (n.answer (.store address width value)).after m = m.withHost { m.host with heap } := by
  simp only [answer, Work.after_bind, Work.result_host, Work.after_host, hs]
  rfl

theorem run_store (n : Nested) {value : UInt64} {heap : Heap} {code : Behaviour α}
    (hs : m.host.heap.store? address.toNat width value = some heap) :
    (n.runCode (.ask (.store address width value) fun _ => code)).run m =
      (n.runCode code).run (m.withHost { m.host with heap }) := by
  rw [← n.after_store hs]
  rfl

end Nested

namespace Body

variable {ρ α β : Type} {b : Bodies} {gs gs' : List Guard} {m m' : Machine} {n : Nested}
  {args args' : List NativeArg} {fits : ρ → Heap → Prop} {finish : ρ → α} {finish' : ρ → β}

/-- The ends of a body in two machines: it has one result, which is in order in the first. -/
def Ends (b : Bodies) (gs gs' : List Guard) (fits : ρ → Heap → Prop) (finish : ρ → α)
    (finish' : ρ → β) (x : α × Machine) (y : β × Machine) : Prop :=
  ∃ r, x.1 = finish r ∧ y.1 = finish' r ∧ fits r x.2.host.heap ∧ x.2.Beside b gs gs' y.2

theorem roomy (hn : n.Collects) {collects : Bool} {body : Body ρ}
    (hs : m.host.Settled b collects gs)
    (hr : ((n.runCode (body.code collects args finish)).run m).2.host.Roomy) : m.host.Roomy :=
  (Work.Keeps.body hn collects args finish body hs).2 hr

/-- Code of a body comes to the same in both, if it is confined in the first, and if there is room
in the end where it goes through arguments at all. -/
theorem abreast (hn : n.Collects) (body : Body ρ)
    (hargs : List.Forall₂ (NativeArg.Alongside gs gs') args args')
    (hc : body.Confined args fits m.host.heap) (hb : m.Beside b gs gs' m')
    (hroom : args ≠ [] →
      ((n.runCode (body.code false args finish)).run m).2.host.Roomy ∧
        ((n.runCode (body.code true args' finish')).run m').2.host.Roomy) :
    Ends b gs gs' fits finish finish' ((n.runCode (body.code false args finish)).run m)
      ((n.runCode (body.code true args' finish')).run m') := by
  induction body generalizing m m' with
  | done r => exact ⟨r, rfl, rfl, hc, hb⟩
  | load arg offset width next ih =>
    obtain ⟨hl, hnext⟩ := hc
    obtain ⟨hr, hr'⟩ := hroom hl.ne_nil
    obtain ⟨w, hw, hw'⟩ := Host.load_alongside hb.host hb.left hb.right (roomy hn hb.left hr)
      (roomy hn hb.right hr') hargs hl
    unfold code at hroom ⊢
    rw [n.run_load hw, n.run_load hw'] at hroom ⊢
    exact ih w (hnext w hw) hb hroom
  | store arg offset width value next ih =>
    obtain ⟨hl, hnext⟩ := hc
    obtain ⟨hr, hr'⟩ := hroom hl.ne_nil
    obtain ⟨heap, heap', hs, hs', hsame⟩ := Host.store_alongside value hb.host hb.left hb.right
      (roomy hn hb.left hr) (roomy hn hb.right hr') hargs hl
    have hleft := (Work.Keeps.store (n := n) (pointerAt args arg offset) width value hb.left).1
    have hright := (Work.Keeps.store (n := n) (pointerAt args' arg offset) width value hb.right).1
    rw [n.after_store hs] at hleft
    rw [n.after_store hs'] at hright
    unfold code at hroom ⊢
    rw [n.run_store hs, n.run_store hs'] at hroom ⊢
    have hhost := Host.unplaced_heap hb.host hsame
    exact ih (hnext heap hs) (hb.withHost hhost hleft hright) hroom
  | note e next ih =>
    have hnoted : ({ m with journal := m.journal ++ [e] } : Machine).Beside b gs gs'
        { m' with journal := m'.journal ++ [e] } := by
      rw [hb.journal]
      exact hb.withJournal _
    exact ih hc hnoted hroom
  | collect next ih => exact ih hc (hb.collect_right hn) hroom

end Body

end AccelHost
