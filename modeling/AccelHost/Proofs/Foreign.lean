import AccelHost.Proofs.Carries
import AccelHost.Proofs.HeapMoves

/-!
Foreign code is carried by moves, whatever it asks for, if the operations and programs that it may
ask for are.
-/
namespace AccelHost

open Holding

theorem Host.Quiet.refl (h : Host) : h.Quiet h :=
  ⟨rfl, Nat.le_refl _, Nat.le_refl _⟩

/-- Operations and programs within foreign code that are carried by moves. -/
structure Nested.Lawful (n : Nested) : Prop where
  step : ∀ op G X m, Carries G X m (n.step op) fun _ => X
  run : ∀ p G X m, Carries G X m (n.run p) fun _ => X

namespace Carries

variable {α β : Type} {G : List UnitHandle} {X : List Holding} {m : Machine} {Z : β → List Holding}

theorem note (e : Event) : Carries G X m (Work.note e) fun _ => X := fun _ =>
  .quiet (.refl m.host) id

theorem journaled {w : Work α} {Y : List Holding} (h : ∀ m, Carries G X m w fun _ => Y) :
    Carries G X m (Work.journaled w) fun _ => Y := fun ho => by
  have h₁ : Moves X m X { m with journal := [] } := .quiet (.refl m.host) id
  have h₂ := h { m with journal := [] } (h₁.orderly ho).1
  exact h₁.trans (h₂.trans (.quiet (.refl _) id))

theorem await (l : Lock) : Carries G X m (Work.await l) fun _ => X := fun _ =>
  .quiet (.refl m.host) Machine.stuck_await

theorem holding {l : Lock} {w : Work α} {Y : α → List Holding}
    (h : Carries G X (m.hold l) w Y) : Carries G X m (Work.holding l w) Y := fun ho => by
  have h₁ : Moves X m X (m.hold l) :=
    .quiet ⟨rfl, Nat.le_refl _, Nat.le_refl _⟩ Machine.stuck_hold
  exact h₁.trans ((h (h₁.orderly ho).1).trans (.quiet ⟨rfl, Nat.le_refl _, Nat.le_refl _⟩ id))

theorem fresh : Carries G X m Work.fresh fun _ => X := fun _ =>
  .quietly ⟨rfl, Nat.le_succ _, Nat.le_refl _⟩

theorem answered (c : Callback) : Carries G X m (Work.answered c) fun _ => X := by
  refine .get ?_
  split
  · rename_i hc
    exact fun _ => .callback hc
  · exact .pure

theorem callback (c : Callback) : Carries G X m (Work.callback c) fun _ => X := by
  unfold Work.callback
  split
  · exact .bind (.note _) fun _ _ => .answered c
  · exact .answered c

end Carries

namespace Nested

variable {n : Nested} {G : List UnitHandle} {X : List Holding} {m : Machine}

theorem Lawful.answer (hn : n.Lawful) (a : Action) : Carries G X m (n.answer a) fun _ => X := by
  cases a with
  | call c => exact .bind (.callback c) fun _ _ => .pure
  | step op => exact .bind (hn.step op G X m) fun _ _ => .pure
  | run p => exact .bind (hn.run p G X m) fun _ _ => .pure
  | note e => exact .bind (.note e) fun _ _ => .pure
  | store address width value =>
    refine .host ?_
    split
    · rename_i heap hs
      exact .modifyHost (.write (Heap.writes_of_store? hs)) .pure
    · exact .pure
  | load | locate | addressOf | markOf => exact .host .pure

/-- Foreign code is carried by moves. -/
theorem Lawful.runCode (hn : n.Lawful) {α : Type} (code : Behaviour α) :
    Carries G X m (n.runCode code) fun _ => X := by
  induction code generalizing m with
  | done a => exact .pure
  | ask request next ih => exact .bind (hn.answer request) fun _ _ => ih _

end Nested

end AccelHost
