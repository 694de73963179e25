import AccelHost.Proofs.Framed

/-!
Work carried by moves. `Carries G X m w Y` says that work `w`, begun at a machine in order, leads to
its final machine by moves that change what is held from `X` to `Y`, while others hold `G`.
-/
namespace AccelHost

namespace Machine

variable (m : Machine) (l : Lock)

@[simp] theorem hold_await : (m.await l).hold l = m.hold l :=
  congrArg (fun stuck => ({ m with host := { m.host with locks := l :: m.host.locks }, stuck } :
    Machine)) ((Bool.or_assoc ..).trans (congrArg _ (Bool.or_self _)))

@[simp] theorem host_await : (m.await l).host = m.host := rfl

variable {m l}

theorem stuck_await (hs : m.stuck = true) : (m.await l).stuck = true := by
  simp [await, hs]

theorem stuck_hold (hs : m.stuck = true) : (m.hold l).stuck = true := stuck_await hs

@[simp] theorem trace_withHost (h : Host) : (m.withHost h).trace = m.trace := rfl

@[simp] theorem trace_withLocks (locks : List Lock) : (m.withLocks locks).trace = m.trace := rfl

@[simp] theorem provided_withLocks (locks : List Lock) :
    (m.withLocks locks).host.provided = m.host.provided := rfl

theorem await_of_not_mem (hl : l ∉ m.host.locks) : m.await l = m := by
  simp [await, hl]

theorem stuck_of_mem (hl : l ∈ m.host.locks) : (m.await l).stuck = true := by
  simp [await, hl]

variable (m l)

@[simp] theorem provided_hold : (m.hold l).host.provided = m.host.provided := rfl

end Machine

namespace Work

variable {α β : Type} (w : Work α) (m : Machine)

/-- What work gives at a machine. -/
def result : α := (w.run m).1

/-- The machine after some work. -/
def after : Machine := (w.run m).2

@[simp] theorem result_pure (a : α) : (pure a : Work α).result m = a := rfl

@[simp] theorem after_pure (a : α) : (pure a : Work α).after m = m := rfl

@[simp] theorem result_bind (f : α → Work β) :
    (w >>= f).result m = (f (w.result m)).result (w.after m) := rfl

@[simp] theorem after_bind (f : α → Work β) :
    (w >>= f).after m = (f (w.result m)).after (w.after m) := rfl

@[simp] theorem result_get : (MonadState.get : Work Machine).result m = m := rfl

@[simp] theorem after_get : (MonadState.get : Work Machine).after m = m := rfl

@[simp] theorem result_host : host.result m = m.host := rfl

@[simp] theorem after_host : host.after m = m := rfl

@[simp] theorem after_modifyHost (f : Host → Host) :
    (modifyHost f).after m = m.withHost (f m.host) := rfl

@[simp] theorem after_await (l : Lock) : (await l).after m = m.await l := rfl

@[simp] theorem result_holding (l : Lock) : (holding l w).result m = w.result (m.hold l) := rfl

@[simp] theorem after_holding (l : Lock) :
    (holding l w).after m = (w.after (m.hold l)).withLocks m.host.locks := rfl

@[simp] theorem after_trace (e : TraceEvent) :
    (Work.trace e).after m = { m with trace := m.trace ++ [e] } := rfl

end Work

open Holding

def Carries {α : Type} (G : List UnitHandle) (X : List Holding) (m : Machine) (w : Work α)
    (Y : α → List Holding) : Prop :=
  m.Orderly (units X ++ G) → Moves X m (Y (w.result m)) (w.after m)

namespace Carries

variable {α β : Type} {G : List UnitHandle} {X : List Holding} {m : Machine} {w : Work α}
  {f : α → Work β} {Y : α → List Holding} {Z : β → List Holding}

theorem pure {a : α} : Carries G X m (Pure.pure a) fun _ => X := fun _ => .refl _ _

theorem of_orderly (h : m.Orderly (units X ++ G) → Carries G X m w Y) : Carries G X m w Y :=
  fun ho => h ho ho

theorem pure_bind {a : α} (h : Carries G X m (f a) Z) : Carries G X m (Pure.pure a >>= f) Z := h

/-- One move after another. The second may rely on what the first has done. -/
theorem bind (h : Carries G X m w Y)
    (hf : m.Orderly (units X ++ G) → Moves X m (Y (w.result m)) (w.after m) →
      Carries G (Y (w.result m)) (w.after m) (f (w.result m)) Z) :
    Carries G X m (w >>= f) Z := fun ho => by
  have hm := h ho
  exact hm.trans (hf ho hm (hm.orderly ho).1)

theorem host {f : Host → Work β} (hf : Carries G X m (f m.host) Z) :
    Carries G X m (Work.host >>= f) Z := hf

theorem get {f : Machine → Work β} (hf : Carries G X m (f m) Z) :
    Carries G X m (MonadState.get >>= f) Z := hf

theorem modifyHost {X' : List Holding} {f : Unit → Work β} {g : Host → Host}
    (hm : Moves X m X' (m.withHost (g m.host)))
    (hf : Carries G X' (m.withHost (g m.host)) (f ()) Z) :
    Carries G X m (Work.modifyHost g >>= f) Z := fun ho => hm.trans (hf (hm.orderly ho).1)

theorem trace {f : Unit → Work β} {e : TraceEvent} (he : ∀ x, e.unit? = some x → .unit x ∈ X)
    (hf : Carries G X { m with trace := m.trace ++ [e] } (f ()) Z) :
    Carries G X m (Work.trace e >>= f) Z := fun ho =>
  (Moves.event he).trans (hf ((Moves.event he).orderly ho).1)

theorem declare {f : UnitHandle → Work β}
    (hf : Carries G (.unit m.nextHandle :: X) { m with nextHandle := m.nextHandle + 1 }
      (f m.nextHandle) Z) : Carries G X m (Work.freshHandle >>= f) Z := fun ho =>
  Moves.declare.trans (hf (Moves.declare.orderly ho).1)

end Carries

end AccelHost
