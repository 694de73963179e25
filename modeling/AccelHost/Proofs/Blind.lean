import AccelHost.Proofs.Twin
import AccelHost.Proofs.Foreign

/-!
Work that does not look at the locks that are taken. Foreign code is such work if it asks only for
what its host answers at once, and so is the lowering of an entry whose provider is code like that.
A lock that nobody else has can then be taken around the work or not.
-/
namespace AccelHost

namespace Work

variable {α β : Type}

/-- Work that comes to the same with other locks taken, and leaves these as they are. -/
def Blind (locks : List Lock) (m : Machine) (w : Work α) : Prop :=
  w.result (m.withLocks locks) = w.result m ∧
    w.after (m.withLocks locks) = (w.after m).withLocks locks

namespace Blind

variable {locks : List Lock} {m : Machine} {w : Work α} {f : α → Work β} {l : Lock}

theorem pure {a : α} : Blind locks m (Pure.pure a) := ⟨rfl, rfl⟩

theorem bind (h : Blind locks m w) (hf : Blind locks (w.after m) (f (w.result m))) :
    Blind locks m (w >>= f) := by
  obtain ⟨hr, ha⟩ := h
  unfold Blind
  rw [result_bind, after_bind, hr, ha]
  exact hf

theorem host {f : Host → Work β} (hf : f { m.host with locks } = f m.host)
    (h : Blind locks m (f m.host)) : Blind locks m (Work.host >>= f) := by
  unfold Blind
  simp only [result_bind, after_bind, result_host, after_host]
  exact (congrArg (fun w : Work β =>
    w.result _ = _ ∧ w.after _ = _) hf).mpr h

theorem modifyHost {f : Unit → Work β} {g : Host → Host}
    (hg : g { m.host with locks } = { g m.host with locks })
    (h : Blind locks (m.withHost (g m.host)) (f ())) :
    Blind locks m (Work.modifyHost g >>= f) :=
  bind ⟨rfl, congrArg m.withHost hg⟩ h

/-- A lock that is not taken makes no difference to work that does not look at locks. -/
theorem holding (hm : l ∉ m.host.locks) (hl : l ∉ locks) (h : ∀ locks, Blind locks m w) :
    Blind locks m (Work.holding l w) := by
  have hfree : m.hold l = m.withLocks (l :: m.host.locks) := by simp [Machine.hold, Machine.await,
    Machine.withLocks, hm]
  have hfree' : (m.withLocks locks).hold l = m.withLocks (l :: locks) := by
    simp [Machine.hold, Machine.await, Machine.withLocks, hl]
  obtain ⟨hr, ha⟩ := h (l :: m.host.locks)
  obtain ⟨hr', ha'⟩ := h (l :: locks)
  unfold Blind
  simp only [result_holding, after_holding, hfree, hfree', hr, hr', ha, ha', true_and]
  rfl

end Blind

theorem holding_of_blind {m : Machine} {w : Work α} {l : Lock} (hl : l ∉ m.host.locks)
    (h : Blind (l :: m.host.locks) m w) :
    (holding l w).result m = w.result m ∧
      (holding l w).after m = (w.after m).withLocks m.host.locks := by
  have hfree : m.hold l = m.withLocks (l :: m.host.locks) := by
    simp [Machine.hold, Machine.await, Machine.withLocks, hl]
  simp only [result_holding, after_holding, hfree, h.1, h.2, true_and]
  rfl

end Work

theorem answerInnermost_withLocks (c : Callback) (h : Host) (locks : List Lock)
    (waiting : List Host) :
    answerInnermost c ({ h with locks } :: waiting) = (answerInnermost c (h :: waiting)).map
      fun x => (x.1, x.2.modifyHead fun h => { h with locks }) := by
  unfold answerInnermost
  cases hs : h.sessions with
  | cons s outer => rfl
  | nil => cases answerInnermost c waiting <;> simp [hs]

namespace Work.Blind

variable {n : Nested} {locks : List Lock} {m : Machine}

theorem answered (c : Callback) : Blind locks m (Work.answered c) := by
  have h := answerInnermost_withLocks c m.host locks m.waiting
  unfold Blind Work.answered
  simp only [result_bind, after_bind, result_get, after_get, Machine.withLocks, h]
  cases answerInnermost c (m.host :: m.waiting) with
  | none => exact ⟨rfl, rfl⟩
  | some x =>
    obtain ⟨reply, hosts⟩ := x
    cases hosts with
    | nil => exact ⟨rfl, rfl⟩
    | cons host waiting => exact ⟨rfl, rfl⟩

theorem callback (c : Callback) : Blind locks m (Work.callback c) := by
  unfold Work.callback
  split
  · exact bind ⟨rfl, rfl⟩ (answered c)
  · exact answered c

theorem answer {a : Action} (ha : a.Immediate) : Blind locks m (n.answer a) := by
  cases a with
  | step op => exact ha.elim
  | run p => exact ha.elim
  | call c => exact bind (callback c) pure
  | note e => exact ⟨rfl, rfl⟩
  | load address width => exact ⟨rfl, rfl⟩
  | store address width value =>
    refine host rfl ?_
    split
    · exact modifyHost rfl pure
    · exact pure
  | locate address => exact ⟨rfl, rfl⟩
  | addressOf obj => exact ⟨rfl, rfl⟩
  | markOf obj => exact ⟨rfl, rfl⟩

theorem runCode {α : Type} {code : Behaviour α} (hc : code.OnlyAsks Action.Immediate) :
    Blind locks m (n.runCode code) := by
  induction hc generalizing m with
  | done a => exact pure
  | ask ha _ ih => exact bind (answer ha) (ih _)

end Work.Blind

namespace Dispatch

open Work

variable {n : Nested} {locks : List Lock} {m : Machine}

theorem askProvider_blind (hr : m.host.Reserved) (e : Entry) (provider : CodeRef)
    (data : Option CodeRef) : Blind locks m (askProvider n e provider data) := by
  unfold askProvider
  split
  · exact .pure
  · refine .bind ⟨rfl, rfl⟩ (.host rfl ?_)
    split
    · rename_i code hcode
      exact .runCode (hr.2 provider code hcode _ _)
    · exact .pure

theorem nativeFunc_blind (hr : m.host.Reserved) (e : Entry) (hl : .answer e.id ∉ locks) :
    Blind locks m (nativeFunc n e) := by
  unfold nativeFunc
  split
  · exact .pure
  · refine .host rfl ?_
    split
    · exact .pure
    · have hm : .answer e.id ∉ m.host.locks := by simp [hr.1]
      refine .bind (.holding hm hl fun _ => askProvider_blind hr e _ _) (.host rfl ?_)
      exact .modifyHost rfl .pure

theorem lower_blind (hr : m.host.Reserved) (e : Entry) (hl : .answer e.id ∉ locks) :
    Blind locks m (lower n e) := by
  unfold lower
  refine .host rfl ?_
  split
  · exact .pure
  · refine .bind (nativeFunc_blind hr e hl) ?_
    split <;> exact .pure

end Dispatch

end AccelHost
