import AccelHost.Proofs.Blind
import AccelHost.Proofs.RunMoves

/-!
Work on two machines that do the same but for the modes of calls. It leaves two such machines, and
the first of them in order.
-/
namespace AccelHost

open Holding

/-- Work on two machines side by side, from units `G` in hand to units that its result tells, with
results in a relation. -/
def Paired {α β : Type} (q : Prop) (G : List UnitHandle) (m m' : Machine) (w : Work α) (w' : Work β)
    (R : α → β → Prop) (H : α → List UnitHandle) : Prop :=
  m.Orderly G → m.Twin q m' → (w.after m).Orderly (H (w.result m)) ∧
    R (w.result m) (w'.result m') ∧ (w.after m).Twin q (w'.after m')

/-- Work with one result that takes no unit into hand. -/
abbrev Agree {α : Type} (q : Prop) (G : List UnitHandle) (m m' : Machine) (w w' : Work α) : Prop :=
  Paired q G m m' w w' Eq fun _ => G

namespace Paired

variable {α β γ δ : Type} {q : Prop} {G J : List UnitHandle} {m m' : Machine}
  {w : Work α} {w' : Work β}
  {f : α → Work γ} {f' : β → Work δ} {R : α → β → Prop} {S : γ → δ → Prop}
  {H : α → List UnitHandle} {K : γ → List UnitHandle}

theorem pure {a : α} {b : β} (h : R a b) :
    Paired q G m m' (Pure.pure a) (Pure.pure b) R fun _ => G := fun ho ht => ⟨ho, h, ht⟩

theorem of (h : m.Orderly G → m.Twin q m' → Paired q G m m' w w' R H) : Paired q G m m' w w' R H :=
  fun ho ht => h ho ht ho ht

/-- One piece of work after another, whatever machines the first one leaves. -/
theorem bind (h : Paired q G m m' w w' R H)
    (hf : ∀ a b m m', R a b → Paired q (H a) m m' (f a) (f' b) S K) :
    Paired q G m m' (w >>= f) (w' >>= f') S K := fun ho ht => by
  obtain ⟨ho₁, hr, ht₁⟩ := h ho ht
  exact hf _ _ _ _ hr ho₁ ht₁

theorem congr {v : Work α} {v' : Work β} (h : Paired q G m m' v v' R H)
    (hr : w.result m = v.result m) (ha : w.after m = v.after m)
    (hr' : w'.result m' = v'.result m') (ha' : w'.after m' = v'.after m') :
    Paired q G m m' w w' R H := fun ho ht => by
  rw [hr, ha, hr', ha']
  exact h ho ht

theorem imp {R' : α → β → Prop} {H' : α → List UnitHandle} (h : Paired q G m m' w w' R H)
    (hR : ∀ a b, R a b → R' a b) (hH : ∀ a (m : Machine), m.Orderly (H a) → m.Orderly (H' a)) :
    Paired q G m m' w w' R' H' := fun ho ht => by
  obtain ⟨ho₁, hr, ht₁⟩ := h ho ht
  exact ⟨hH _ _ ho₁, hR _ _ hr, ht₁⟩

/-- What is carried by moves ends in order. -/
theorem of_carries {X : List Holding} {Y : α → List Holding} (hc : Carries G X m w Y)
    (h : m.Orderly (units X ++ G) → m.Twin q m' →
      R (w.result m) (w'.result m') ∧ (w.after m).Twin q (w'.after m')) :
    Paired q (units X ++ G) m m' w w' R fun a => units (Y a) ++ G := fun ho ht =>
  ⟨((hc ho).orderly ho).1, h ho ht⟩

theorem host {f : Host → Work γ} {f' : Host → Work δ}
    (hf : m.Orderly G → m.Twin q m' → Paired q G m m' (f m.host) (f' m'.host) S K) :
    Paired q G m m' (Work.host >>= f) (Work.host >>= f') S K := .of hf

theorem get {f : Machine → Work γ} {f' : Machine → Work δ}
    (hf : m.Orderly G → m.Twin q m' → Paired q G m m' (f m) (f' m') S K) :
    Paired q G m m' (MonadState.get >>= f) (MonadState.get >>= f') S K := .of hf

theorem modifyHost_at {g g' : Host → Host} {f : Unit → Work γ} {f' : Unit → Work δ}
    (ho : m.Orderly G → (m.withHost (g m.host)).Orderly J)
    (ht : m.Orderly G → m.host.Twin q m'.host → (g m.host).Twin q (g' m'.host))
    (hf : ∀ m m', Paired q J m m' (f ()) (f' ()) S K) :
    Paired q G m m' (Work.modifyHost g >>= f) (Work.modifyHost g' >>= f') S K := fun hm t =>
  hf _ _ (ho hm) (t.withHost (ht hm t.host))

theorem modifyHost {g g' : Host → Host} {f : Unit → Work γ} {f' : Unit → Work δ}
    (ho : m.Orderly G → (m.withHost (g m.host)).Orderly J)
    (ht : ∀ {h h' : Host}, h.Twin q h' → (g h).Twin q (g' h'))
    (hf : ∀ m m', Paired q J m m' (f ()) (f' ()) S K) :
    Paired q G m m' (Work.modifyHost g >>= f) (Work.modifyHost g' >>= f') S K :=
  .modifyHost_at ho (fun _ t => ht t) hf

theorem trace {f : Unit → Work γ} {f' : Unit → Work δ} {e : TraceEvent}
    (hf : ∀ m m', Paired q G m m' (f ()) (f' ()) S K) :
    Paired q G m m' (Work.trace e >>= f) (Work.trace e >>= f') S K := fun ho t => by
  cases t with
  | mk hh hw hs => exact hf _ _ (ho.of_same rfl (.refl _) rfl) (.mk hh hw hs)

/-! ### Locks -/

/-- The locks that are waited for need not be the same. -/
theorem await {l l' : Lock} {f : Unit → Work γ} {f' : Unit → Work δ}
    (hf : ∀ m m', Paired q G m m' (f ()) (f' ()) S K) :
    Paired q G m m' (Work.await l >>= f) (Work.await l' >>= f') S K := fun ho t =>
  hf _ _ (ho.of_same rfl (.refl _) rfl) ((t.await_left l).await_right l')

section Locks

variable {l : Lock}

/-- A lock around the first of two pieces of work makes no difference. Where providers are reserved,
nobody else has it, and the work does not look at it. -/
theorem holding_left (hb : q → m.host.Reserved → Work.Blind [l] m w)
    (h : ∀ m₁, m₁ = m ∨ m₁ = m.hold l → Paired q G m₁ m' w w' R H) :
    Paired q G m m' (Work.holding l w) w' R H := fun ho t => by
  by_cases hq : q
  · have hr := (t.host.reserved hq).1
    obtain ⟨ho₁, hR, t₁⟩ := h m (.inl rfl) ho t
    have hlocks : m.host.locks = (w.after m).host.locks := by
      rw [hr.1, (t₁.host.reserved hq).1.1]
    obtain ⟨hres, hafter⟩ := Work.holding_of_blind (m := m) (w := w) (l := l) (by simp [hr.1])
      (by rw [hr.1]; exact hb hq hr)
    rw [hres, hafter, hlocks]
    exact ⟨ho₁, hR, t₁⟩
  · have t₀ : (m.hold l).Twin q m' := by
      cases t with
      | mk hh hw _ => exact .mk (hh.withLocks_left hq _) hw fun h => absurd h hq
    obtain ⟨ho₁, hR, t₁⟩ := h (m.hold l) (.inr rfl)
      (ho.of_same rfl { Host.Same.refl _ with } rfl) t₀
    refine ⟨ho₁.of_same rfl { Host.Same.refl _ with } rfl, hR, ?_⟩
    exact t₁.withHost_left (t₁.host.withLocks_left hq _)

theorem holding_right (hb : q → m'.host.Reserved → Work.Blind [l] m' w')
    (h : ∀ m₁, Paired q G m m₁ w w' R H) :
    Paired q G m m' w (Work.holding l w') R H := fun ho t => by
  by_cases hq : q
  · have hr := (t.host.reserved hq).2
    obtain ⟨ho₁, hR, t₁⟩ := h m' ho t
    have hlocks : m'.host.locks = (w'.after m').host.locks := by
      rw [hr.1, (t₁.host.reserved hq).2.1]
    obtain ⟨hres, hafter⟩ := Work.holding_of_blind (m := m') (w := w') (l := l) (by simp [hr.1])
      (by rw [hr.1]; exact hb hq hr)
    rw [hres, hafter, hlocks]
    exact ⟨ho₁, hR, t₁⟩
  · have t₀ : m.Twin q (m'.hold l) := by
      cases t with
      | mk hh hw _ => exact .mk (hh.withLocks_right hq _) hw fun h => absurd h hq
    obtain ⟨ho₁, hR, t₁⟩ := h (m'.hold l) ho t₀
    refine ⟨ho₁, hR, ?_⟩
    exact t₁.withHost_right (t₁.host.withLocks_right hq _)

end Locks

end Paired

/-! ### Foreign code -/

/-- Operations and programs within foreign code that go side by side when they are alike. -/
structure Nested.Fair (n : Nested) (q : Prop) : Prop where
  lawful : n.Lawful
  step : ∀ {op op' : Op}, Op.Alike q op op' → ∀ G m m',
    Paired q G m m' (n.step op) (n.step op') op.Told fun _ => G
  run : ∀ {p p' : Program}, Program.Alike q p p' → ∀ G m m',
    Paired q G m m' (n.run p) (n.run p') (Op.RunTold p.steps) fun _ => G

theorem answerInnermost_rel {q : Prop} (c : Callback) {hosts hosts' : List Host}
    (h : List.Forall₂ (Host.Twin q) hosts hosts') :
    Option.Rel (fun a b => a.1 = b.1 ∧ List.Forall₂ (Host.Twin q) a.2 b.2)
      (answerInnermost c hosts) (answerInnermost c hosts') := by
  induction h with
  | nil => exact .none
  | @cons a b rest rest' hab hrest ih =>
    have hsessions : b.sessions = a.sessions := by cases hab; rfl
    have hflags : b.flags = a.flags := by cases hab; rfl
    unfold answerInnermost
    rw [hsessions, hflags]
    cases a.sessions with
    | cons s outer =>
      refine .some ⟨rfl, .cons ?_ hrest⟩
      cases hab with | mk hs hn hp hm hc hq => exact .mk hs hn hp hm hc hq
    | nil =>
      generalize answerInnermost c rest = x at ih ⊢
      generalize answerInnermost c rest' = y at ih ⊢
      cases ih with
      | none => exact .none
      | some h => exact .some ⟨h.1, .cons hab h.2⟩

namespace Paired

variable {α : Type} {q : Prop} {G : List UnitHandle} {m m' : Machine}

theorem note (e : Event) : Agree q G m m' (Work.note e) (Work.note e) :=
  .of_carries (X := []) (.note e) fun _ t => by
    cases t with | mk hh hw hs => exact ⟨rfl, .mk hh hw hs⟩

theorem fresh : Agree q G m m' Work.fresh Work.fresh := by
  refine .host fun ho t => ?_
  rw [t.host.same (·.serial) fun _ _ _ _ _ _ => rfl]
  refine .modifyHost (J := G) (fun _ => ?_) (fun t => ?_) fun _ _ => .pure rfl
  · exact ho.of_same rfl { Host.Same.refl _ with serial := Nat.le_succ _ } rfl
  · cases t with | mk hs hn hp hm hc hq => exact .mk hs hn hp hm hc hq

theorem answered (c : Callback) : Agree q G m m' (Work.answered c) (Work.answered c) := by
  refine .get fun ho t => ?_
  have h := answerInnermost_rel c (.cons t.host t.waiting)
  cases hx : answerInnermost c (m.host :: m.waiting) with
  | none =>
    rw [hx] at h
    generalize answerInnermost c (m'.host :: m'.waiting) = y at h ⊢
    cases h
    exact .pure rfl
  | some x =>
    rw [hx] at h
    generalize answerInnermost c (m'.host :: m'.waiting) = y at h ⊢
    obtain ⟨reply, hosts⟩ := x
    cases h with
    | @some _ b h =>
      obtain ⟨reply', hosts'⟩ := b
      obtain ⟨hr, hh⟩ := h
      cases hr
      cases hh with
      | nil => exact .pure rfl
      | cons hhost hwaiting =>
        have ho' := ((Moves.callback (X := []) hx).orderly ho).1
        cases t with | mk _ _ hs => exact fun _ _ => ⟨ho', rfl, .mk hhost hwaiting hs⟩

theorem callback (c : Callback) : Agree q G m m' (Work.callback c) (Work.callback c) := by
  unfold Work.callback
  split
  · exact .bind (.note _) fun _ _ _ _ _ => .answered c
  · exact .answered c

theorem journaled {α : Type} {w w' : Work α} {R : α → α → Prop}
    (h : ∀ m m', Paired q G m m' w w' R fun _ => G) :
    Paired q G m m' (Work.journaled w) (Work.journaled w')
      (fun a b => R a.1 b.1 ∧ a.2 = b.2) fun _ => G := fun ho t => by
  have ho₁ : ({ m with journal := [] } : Machine).Orderly G := ho.of_same rfl (.refl _) rfl
  obtain ⟨ho₂, hr, t₂⟩ := h _ _ ho₁ (t.withJournal [])
  refine ⟨ho₂.of_same rfl (.refl _) rfl, ⟨hr, t₂.journal.symm⟩, ?_⟩
  have hafter : (Work.journaled w').after m' =
      { w'.after { m' with journal := [] } with journal := m.journal } := by
    rw [← t.journal]
    rfl
  rw [hafter]
  exact t₂.withJournal m.journal

theorem answer {n : Nested} (hn : n.Fair q) {a b : Action} (h : Action.Alike q a b) :
    Paired q G m m' (n.answer a) (n.answer b) a.Told fun _ => G := by
  cases h with
  | call c => exact .bind (.callback c) fun _ _ _ _ hr => .pure (by rw [hr]; exact .same _ _)
  | step h => exact .bind (hn.step h G m m') fun _ _ _ _ hr => .pure (.step hr)
  | run h => exact .bind (hn.run h G m m') fun _ _ _ _ hr => .pure (.run hr)
  | note e => exact .bind (.note e) fun _ _ _ _ _ => .pure (.same _ _)
  | load address width =>
    refine .host fun _ t => .pure ?_
    rw [t.host.same (·.heap) fun _ _ _ _ _ _ => rfl]
    exact .same _ _
  | store address width value =>
    refine .host fun ho t => ?_
    rw [t.host.same (·.heap) fun _ _ _ _ _ _ => rfl]
    cases hs : m.host.heap.store? address.toNat width value with
    | none => exact .pure (.same _ _)
    | some heap =>
      refine .modifyHost (J := G) (fun ho => ?_) (fun t => ?_) fun _ _ => .pure (.same _ _)
      · exact ho.of_same rfl { Host.Same.refl _ with } rfl
      · cases t with | mk hs hn hp hm hc hq => exact .mk hs hn hp hm hc hq
  | locate address =>
    refine .host fun _ t => .pure ?_
    rw [t.host.same (·.heap) fun _ _ _ _ _ _ => rfl]
    exact .same _ _
  | addressOf obj =>
    refine .host fun _ t => .pure ?_
    rw [t.host.same (·.addressOf obj) fun _ _ _ _ _ _ => rfl]
    exact .same _ _
  | markOf obj =>
    refine .host fun _ t => .pure ?_
    rw [t.host.same (·.marks) fun _ _ _ _ _ _ => rfl]
    exact .same _ _

/-- Code that is alike comes to the same. -/
theorem runCode {n : Nested} (hn : n.Fair q) {c d : Behaviour α} (h : Behaviour.Alike q c d) :
    Agree q G m m' (n.runCode c) (n.runCode d) := by
  induction h generalizing m m' with
  | done a => exact .pure rfl
  | ask hr _ ih => exact .bind (.answer hn hr) fun x y _ _ ht => ih x y ht

end Paired

end AccelHost
