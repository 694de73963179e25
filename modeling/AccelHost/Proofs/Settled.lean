import AccelHost.Proofs.Bodies

/-!
A host that gives out addresses once, with native code that keeps to its arguments. Whatever is done
with its heap and its entries, its blocks are laid apart, its pins and guards tally as long as no
count wraps, and addresses are not given back.
-/
namespace AccelHost

open Holding

/-- A host with given native code, whose blocks are laid and whose pins tally. -/
structure Host.Settled (b : Bodies) (collects : Bool) (gs : List Guard) (h : Host) : Prop where
  native : h.native = b.natives collects
  provider : h.provider = b.providers collects
  laid : h.heap.Laid h.addressLimit
  tallied : h.heap.wrapped = false → h.Tallied gs

/-- If there is room in a host later, there was before. -/
def Host.Earlier (h h' : Host) : Prop := h'.Roomy → h.Roomy

namespace Host

/-- What the heap, its guards and the native code are. -/
def ground (h : Host) := (h.heap, h.addressLimit, h.guards, h.native, h.provider)

variable {b : Bodies} {collects : Bool} {gs : List Guard} {h h' : Host}

theorem Settled.of_ground (hs : h.Settled b collects gs) (hg : h'.ground = h.ground) :
    h'.Settled b collects gs ∧ h.Earlier h' := by
  simp only [ground, Prod.mk.injEq] at hg
  obtain ⟨hheap, hnext, hguards, hnative, hprovider⟩ := hg
  refine ⟨⟨hnative.trans hs.native, hprovider.trans hs.provider, ?_, fun hw => ?_⟩, fun hr => ?_⟩
  · rw [hheap, hnext]
    exact hs.laid
  · rw [hheap] at hw
    exact (hs.tallied hw).of_eq hheap hguards
  · exact ⟨hnext ▸ hr.room, hheap ▸ hr.unwrapped⟩

theorem Settled.moves {F : List Guard} {m m' : Machine} {X Y : List Holding}
    (hs : m.host.Settled b collects (Holding.guards X ++ F)) (hm : Moves X m Y m')
    (hgs : Holding.guards Y ++ F = gs) :
    m'.host.Settled b collects gs ∧ m.host.Earlier m'.host := by
  subst hgs
  refine ⟨⟨hm.around.native.trans hs.native, hm.around.provider.trans hs.provider,
    (hm.laid hs.laid).1, ?_⟩, hm.roomy hs.laid⟩
  exact fun hw => hm.tallied hw (hs.tallied (hm.wrapped hw))

end Host

theorem Host.Settled.heapOp {b : Bodies} {collects : Bool} {gs : List Guard} {h : Host}
    (hs : h.Settled b collects gs) (op : HeapOp) :
    (op.perform h).2.Settled b collects gs ∧ h.Earlier (op.perform h).2 := by
  have hmoves : Moves [] { host := h, nextHandle := 0 } [] _ := .heapOp op
  exact Host.Settled.moves (F := gs) hs hmoves rfl

/-! ### Work that keeps a host settled -/

/-- Work that keeps the host at work settled, with guards in hand, and gives back no address. -/
def Work.Keeps {α : Type} (b : Bodies) (collects : Bool) (gs : List Guard) (m : Machine)
    (w : Work α) : Prop :=
  m.host.Settled b collects gs →
    (w.after m).host.Settled b collects gs ∧ m.host.Earlier (w.after m).host

/-- The only operation that code of bodies asks for moves blocks, or does nothing. -/
def Nested.Collects (n : Nested) : Prop := ∀ m,
  (n.step (.heap .relocate)).after m = m ∨
    (n.step (.heap .relocate)).after m = m.withHost m.host.relocate.2

theorem Nested.collects_ofDepth (depth : Nat) : (Nested.ofDepth depth).Collects := by
  cases depth with
  | zero => exact fun m => .inl rfl
  | succ depth => exact fun m => .inr rfl

namespace Work.Keeps

variable {α β : Type} {b : Bodies} {collects : Bool} {gs : List Guard} {m : Machine}
  {n : Nested} {w : Work α} {f : α → Work β}

theorem pure {a : α} : Keeps b collects gs m (Pure.pure a) := fun hs => ⟨hs, id⟩

theorem bind (h : Keeps b collects gs m w) (hf : ∀ a m, Keeps b collects gs m (f a)) :
    Keeps b collects gs m (w >>= f) := fun hs => by
  obtain ⟨hs₁, he₁⟩ := h hs
  obtain ⟨hs₂, he₂⟩ := hf _ _ hs₁
  exact ⟨hs₂, fun hr => he₁ (he₂ hr)⟩

theorem host {f : Host → Work β} (hf : Keeps b collects gs m (f m.host)) :
    Keeps b collects gs m (Work.host >>= f) := hf

theorem modifyHost_at {g : Host → Host} {f : Unit → Work β}
    (hg : m.host.Settled b collects gs →
      (g m.host).Settled b collects gs ∧ m.host.Earlier (g m.host))
    (hf : ∀ m, Keeps b collects gs m (f ())) :
    Keeps b collects gs m (Work.modifyHost g >>= f) := fun hs => by
  obtain ⟨hs₁, he₁⟩ := hg hs
  obtain ⟨hs₂, he₂⟩ := hf (m.withHost (g m.host)) hs₁
  exact ⟨hs₂, fun hr => he₁ (he₂ hr)⟩

theorem modifyHost {g : Host → Host} {f : Unit → Work β} (hg : ∀ h, (g h).ground = h.ground)
    (hf : ∀ m, Keeps b collects gs m (f ())) :
    Keeps b collects gs m (Work.modifyHost g >>= f) := modifyHost_at (·.of_ground (hg _)) hf

theorem trace {f : Unit → Work β} {e : TraceEvent} (hf : ∀ m, Keeps b collects gs m (f ())) :
    Keeps b collects gs m (Work.trace e >>= f) := hf { m with trace := m.trace ++ [e] }

theorem await (l : Lock) : Keeps b collects gs m (Work.await l) := fun hs => ⟨hs, id⟩

theorem holding {l : Lock} (h : ∀ m, Keeps b collects gs m w) :
    Keeps b collects gs m (Work.holding l w) := fun hs => by
  have hheld : (m.hold l).host.ground = m.host.ground := rfl
  have hgiven : ((Work.holding l w).after m).host.ground = (w.after (m.hold l)).host.ground := rfl
  obtain ⟨hs₁, he₁⟩ := hs.of_ground hheld
  obtain ⟨hs₂, he₂⟩ := h (m.hold l) hs₁
  obtain ⟨hs₃, he₃⟩ := hs₂.of_ground hgiven
  exact ⟨hs₃, fun hr => he₁ (he₂ (he₃ hr))⟩

theorem fresh : Keeps b collects gs m Work.fresh :=
  .host (.modifyHost (fun _ => rfl) fun _ => .pure)

theorem journaled (h : ∀ m, Keeps b collects gs m w) :
    Keeps b collects gs m (Work.journaled w) := h { m with journal := [] }

theorem load (address : UInt64) (width : Nat) :
    Keeps b collects gs m (n.answer (.load address width)) := fun hs => ⟨hs, id⟩

theorem store (address : UInt64) (width : Nat) (value : UInt64) :
    Keeps b collects gs m (n.answer (.store address width value)) := by
  refine .host ?_
  split
  · rename_i heap hstore
    refine .modifyHost_at (fun hs => ?_) fun _ => .pure
    have hmoves : Moves [] m [] (m.withHost { m.host with heap }) :=
      .write (Heap.writes_of_store? hstore)
    exact Host.Settled.moves (F := gs) hs hmoves rfl
  · exact .pure

theorem collect (hn : n.Collects) :
    Keeps b collects gs m (n.answer (.step (.heap .relocate))) := fun hs => by
  have hafter : (n.answer (.step (.heap .relocate))).after m =
    (n.step (.heap .relocate)).after m := rfl
  rw [hafter]
  rcases hn m with h | h
  · rw [h]
    exact ⟨hs, id⟩
  · rw [h]
    exact hs.heapOp .relocate

/-- A body reads, writes and collects, whatever it was handed. -/
theorem body {ρ : Type} (hn : n.Collects) (collects' : Bool) (args : List NativeArg)
    (finish : ρ → α) (body : Body ρ) :
    Keeps b collects gs m (n.runCode (body.code collects' args finish)) := by
  induction body generalizing m with
  | done r => exact .pure
  | load arg offset width next ih => exact .bind (.load _ _) fun _ _ => ih _
  | store arg offset width value next ih => exact .bind (.store _ _ _) fun _ _ => ih
  | note e next ih => exact ih (m := { m with journal := m.journal ++ [e] })
  | collect next ih =>
    unfold Body.code
    split
    · exact .bind (.collect hn) fun _ _ => ih
    · exact ih

theorem heapOp (op : HeapOp) : Keeps b collects gs m ((Op.heap op).perform n) :=
  fun hs => hs.heapOp op

end Work.Keeps

end AccelHost
