import AccelHost.DispatchOps
import AccelHost.HeapOps
import AccelHost.UnitOps

/-!
Runs of programs. Foreign code may call operations and programs, which call foreign code again; a
run allows so many levels of that.
-/
namespace AccelHost

def Op.perform (n : Nested) : Op → Work Reply
  | heap op => do
    let (reply, host) := op.perform (← Work.host)
    Work.modifyHost fun _ => host
    return reply
  | registry op => op.perform
  | dispatch op => op.perform n
  | units op => op.perform n
  | env code => do
    match ← n.runCode code with
    | .status s => return .ok (.status s)
    | .finished result => return .ok (.finished result)

/-- Carries out an operation and gathers the events that it causes. -/
def Op.answer (n : Nested) (op : Op) : Work StepAnswer := do
  let (reply, events) ← Work.journaled (op.perform n)
  return .mk reply events

/-- Ends the work of a host: guards go back, pending units and the runtime are dropped. -/
def closeHost (n : Nested) : Work Unit := do
  Work.modifyHost fun h => { h with heap := h.heap.unpinAll (h.guards.map (·.2)), guards := [] }
  let _ ← UnitOp.dropPending?
  let _ ← UnitOp.withRuntime? (Startup.drop n)

/-- Carries out some operations and then ends the work of the host. -/
def runSteps (n : Nested) (steps : List Op) : Work RunAnswer := do
  let answers ← steps.mapM (Op.answer n)
  let (_, closing) ← Work.journaled (closeHost n)
  return .mk answers closing

/-- Runs a program on a host of its own, while the host at work waits. -/
def runNested (n : Nested) (p : Program) : Work RunAnswer := do
  modify fun m => { m with host := .ofProgram p, waiting := m.host :: m.waiting }
  let answer ← runSteps n p.steps
  modify fun m =>
    match m.waiting with
    | host :: waiting => { m with host, waiting }
    | [] => m
  return answer

/-- Operations and programs within foreign code, for so many more levels. -/
def Nested.ofDepth : Nat → Nested
  | 0 =>
    { step := fun _ => return .mk (.error .tooDeep) []
      run := fun _ => return .mk [] [] }
  | depth + 1 =>
    { step := fun op => op.answer (ofDepth depth)
      run := fun p => runNested (ofDepth depth) p }

def maxDepth : Nat := 4096

def outsideHandle : UnitHandle := 1

def Machine.ofProgram (p : Program) : Machine :=
  { host := .ofProgram p, nextHandle := outsideHandle + 1 }

def Program.run (p : Program) : RunAnswer :=
  ((runSteps (.ofDepth maxDepth) p.steps).run (.ofProgram p)).1

end AccelHost
