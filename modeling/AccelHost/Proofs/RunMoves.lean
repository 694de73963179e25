import AccelHost.Proofs.UnitMoves

/-!
Whole runs as moves: operations, the end of a host, and programs within hooks, to any depth.
-/
namespace AccelHost

open Holding

variable {n : Nested} {G : List UnitHandle} {X : List Holding} {m : Machine}

theorem Op.perform_carries (hn : n.Lawful) (op : Op) : Carries G X m (op.perform n) fun _ => X := by
  cases op with
  | heap op => exact .host (.modifyHost (.heapOp op) .pure)
  | registry op => exact op.perform_carries
  | dispatch op => exact op.perform_carries hn
  | units op => exact UnitOp.perform_carries hn op
  | env code =>
    refine .bind (hn.runCode code) fun _ _ => ?_
    split <;> exact .pure

theorem Op.answer_carries (hn : n.Lawful) (op : Op) : Carries G X m (op.answer n) fun _ => X :=
  .bind (.journaled fun _ => op.perform_carries hn) fun _ _ => .pure

theorem answers_carries (hn : n.Lawful) (ops : List Op) :
    Carries G X m (ops.mapM (Op.answer n)) fun _ => X := by
  induction ops generalizing m with
  | nil => exact .pure
  | cons op ops ih =>
    rw [List.mapM_cons]
    exact .bind (op.answer_carries hn) fun _ _ => .bind ih fun _ _ => .pure

theorem closeHost_carries (hn : n.Lawful) : Carries G X m (closeHost n) fun _ => X := by
  have hguards : Moves X m X (m.withHost { m.host with
      heap := m.host.heap.unpinAll (m.host.guards.map (·.2)), guards := [] }) :=
    .trans .unnameAll (.unpinAll (m := m.withHost { m.host with guards := [] }) _)
  refine .modifyHost hguards (.bind UnitOp.dropPending?_carries fun _ _ => ?_)
  exact .bind (UnitOp.withRuntime?_carries fun r m hf hr => Startup.drop_carries hn hf hr)
    fun _ _ => .pure

theorem runSteps_carries (hn : n.Lawful) (steps : List Op) :
    Carries G X m (runSteps n steps) fun _ => X :=
  .bind (answers_carries hn steps) fun _ _ =>
    .bind (.journaled fun _ => closeHost_carries hn) fun _ _ => .pure

/-- A program within a hook holds nothing of the machine around it. -/
theorem runNested_carries (hn : n.Lawful) (p : Program) :
    Carries G X m (runNested n p) fun _ => X := fun ho =>
  .nested (runSteps_carries (G := units X ++ G) hn p.steps (ho.enter p))

namespace Nested

/-- Nothing happens at the depth that a run does not allow. -/
theorem lawful_zero : (ofDepth 0).Lawful := ⟨fun _ _ _ _ => .pure, fun _ _ _ _ => .pure⟩

theorem lawful_ofDepth (depth : Nat) : (ofDepth depth).Lawful := by
  induction depth with
  | zero => exact lawful_zero
  | succ depth ih =>
    exact ⟨fun op _ _ _ => op.answer_carries ih, fun p _ _ _ => runNested_carries ih p⟩

end Nested

theorem Machine.orderly_ofProgram (p : Program) : (ofProgram p).Orderly [] where
  distinct := by simp [held, Machine.ofProgram, Host.held_ofProgram]
  declared := by simp [held, Machine.ofProgram, Host.held_ofProgram]
  host := Host.orderly_ofProgram p _
  waiting := by simp [Machine.ofProgram]

/-- Order is kept by whatever a program does. -/
theorem Op.orderly_answers (depth : Nat) (ops : List Op) (ho : m.Orderly G) :
    ((ops.mapM (Op.answer (.ofDepth depth))).after m).Orderly G :=
  (Moves.orderly (X := []) (answers_carries (Nested.lawful_ofDepth depth) ops ho) ho).1

end AccelHost
