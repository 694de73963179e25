import AccelHost.Run
import Mathlib.Data.List.Forall2

/-!
Programs that differ in nothing but the modes of their calls. Each invocation, in the program or in
foreign code at any depth, may be interpreted in one of them and compiled in the other. Foreign code
must go on alike after answers that tell alike, which are equal unless they count compiled calls.

It may be that the providers of the programs are known to be reserved: they ask their host for no
operation and no program. Whether they are is a parameter.
-/
namespace AccelHost

/-- Two results: the same error, or values that stand in a relation. -/
inductive ExceptRel {ε α β : Type} (r : α → β → Prop) : Except ε α → Except ε β → Prop where
  | error (e : ε) : ExceptRel r (.error e) (.error e)
  | ok {a : α} {b : β} : r a b → ExceptRel r (.ok a) (.ok b)

/-! ### Answers -/

/-- Replies to an operation that tell the same, but for the number of compiled calls. -/
inductive Op.Tells : Op → Reply → Reply → Prop where
  | same (op : Op) (r : Reply) : Tells op r r
  | compiledCount (n k : Nat) : Tells (.dispatch .compiledCount) (.ok (.count n)) (.ok (.count k))
  | describe (identifiers : List String) (cells entries n k : Nat) (known : List Bool) :
      Tells (.units (.describe identifiers)) (.ok (.described cells (some (entries, n)) known))
        (.ok (.described cells (some (entries, k)) known))

/-- Answers to an operation: replies that tell the same, and the same events. -/
inductive Op.Told : Op → StepAnswer → StepAnswer → Prop where
  | mk {op : Op} {r r' : Reply} (h : op.Tells r r') (es : List Event) :
      Told op (.mk r es) (.mk r' es)

/-- Answers to operations in order, as far as there are any. -/
inductive Op.AllTold : List Op → List StepAnswer → List StepAnswer → Prop where
  | nil (ops : List Op) : AllTold ops [] []
  | cons {op : Op} {ops : List Op} {x y : StepAnswer} {xs ys : List StepAnswer} :
      op.Told x y → AllTold ops xs ys → AllTold (op :: ops) (x :: xs) (y :: ys)

/-- Answers to the operations of a program, and the same events at its end. -/
inductive Op.RunTold (ops : List Op) : RunAnswer → RunAnswer → Prop where
  | mk {xs ys : List StepAnswer} (h : AllTold ops xs ys) (closing : List Event) :
      RunTold ops (.mk xs closing) (.mk ys closing)

/-- Answers to a request of foreign code. -/
inductive Action.Told : Action → ActionReply → ActionReply → Prop where
  | same (a : Action) (x : ActionReply) : Told a x x
  | step {op : Op} {x y : StepAnswer} : op.Told x y → Told (.step op) (.stepped x) (.stepped y)
  | run {p : Program} {x y : RunAnswer} : Op.RunTold p.steps x y → Told (.run p) (.ran x) (.ran y)

/-! ### Code -/

section Code

variable {ω ρ α σ : Type}

/-- Code that makes requests in a relation, and goes on like that after answers in another one. -/
inductive Code.Alike (r : ω → ω → Prop) (t : ω → ρ → ρ → Prop) :
    Code ω ρ α → Code ω ρ α → Prop where
  | done (a : α) : Alike r t (.done a) (.done a)
  | ask {a b : ω} {f g : ρ → Code ω ρ α} :
      r a b → (∀ x y, t a x y → Alike r t (f x) (g y)) → Alike r t (.ask a f) (.ask b g)

inductive Code.OnlyAsks (u : ω → Prop) : Code ω ρ α → Prop where
  | done (a : α) : OnlyAsks u (.done a)
  | ask {a : ω} {f : ρ → Code ω ρ α} : u a → (∀ x, OnlyAsks u (f x)) → OnlyAsks u (.ask a f)

theorem Code.OnlyAsks.imp {u v : ω → Prop} {c : Code ω ρ α} (h : c.OnlyAsks u)
    (huv : ∀ a, u a → v a) :
    c.OnlyAsks v := by
  induction h with
  | done a => exact .done a
  | ask ha _ ih => exact .ask (huv _ ha) ih

inductive ModuleOf.Alike (r : ω → ω → Prop) (t : ω → ActionReply → ActionReply → Prop) :
    ModuleOf ω → ModuleOf ω → Prop where
  | mk {location : String} {init init' postInit postInit' finalize finalize' :
        Option (UnitHandle → Code ω ActionReply Status)}
      {exports exports' : Option (Code ω ActionReply (Option ExportTable))} :
      Option.Rel (fun f g => ∀ x, (f x).Alike r t (g x)) init init' →
      Option.Rel (fun f g => ∀ x, (f x).Alike r t (g x)) postInit postInit' →
      Option.Rel (fun f g => ∀ x, (f x).Alike r t (g x)) finalize finalize' →
      Option.Rel (Code.Alike r t) exports exports' →
      Alike r t ⟨location, init, postInit, finalize, exports⟩
        ⟨location, init', postInit', finalize', exports'⟩

inductive SourceOf.Alike (r : ω → ω → Prop) (t : ω → ActionReply → ActionReply → Prop) :
    SourceOf ω → SourceOf ω → Prop where
  | mk {load load' : UnitOption → Except LookupFault (ModuleOf ω)} {contains : String → Bool} :
      (∀ option, ExceptRel (ModuleOf.Alike r t) (load option) (load' option)) →
      Alike r t ⟨load, contains⟩ ⟨load', contains⟩

/-- Programs with operations in a relation, whose providers make only some requests. -/
inductive ProgramOf.Alike (r : ω → ω → Prop) (t : ω → ActionReply → ActionReply → Prop)
    (s : σ → σ → Prop) (u : ω → Prop) : ProgramOf ω σ → ProgramOf ω σ → Prop where
  | mk {settings : Settings} {layout : Layout} {allocator : Allocator}
      {source source' : SourceOf ω}
      {native native' : CodeRef → Option (List NativeArg → Code ω ActionReply UInt64)}
      {provider provider' : CodeRef →
        Option (String → Option CodeRef → Code ω ActionReply (Option CodeRef))}
      {steps steps' : List σ} :
      SourceOf.Alike r t source source' →
      (∀ func, Option.Rel (fun f g => ∀ args, (f args).Alike r t (g args))
        (native func) (native' func)) →
      (∀ code, Option.Rel (fun f g => ∀ name data, (f name data).Alike r t (g name data))
        (provider code) (provider' code)) →
      (∀ code, ∀ f ∈ provider code, ∀ name data, (f name data).OnlyAsks u) →
      (∀ code, ∀ f ∈ provider' code, ∀ name data, (f name data).OnlyAsks u) →
      List.Forall₂ s steps steps' →
      Alike r t s u ⟨settings, layout, allocator, source, native, provider, steps⟩
        ⟨settings, layout, allocator, source', native', provider', steps'⟩

end Code

/-- A request that the host answers at once: for no operation, and for no program. -/
def Action.Immediate : Action → Prop
  | .step _ | .run _ => False
  | _ => True

mutual

/-- Requests that are the same but for modes within them. -/
inductive Action.Alike (q : Prop) : Action → Action → Prop where
  | call (c : Callback) : Action.Alike q (.call c) (.call c)
  | step {op op' : Op} : Op.Alike q op op' → Action.Alike q (.step op) (.step op')
  | run {p p' : Program} : ProgramOf.Alike (Action.Alike q) Action.Told (Op.Alike q)
      (fun a => q → a.Immediate) p p' →
      Action.Alike q (.run p) (.run p')
  | note (e : Event) : Action.Alike q (.note e) (.note e)
  | load (address : UInt64) (width : Nat) :
      Action.Alike q (.load address width) (.load address width)
  | store (address : UInt64) (width : Nat) (value : UInt64) :
      Action.Alike q (.store address width value) (.store address width value)
  | locate (address : UInt64) : Action.Alike q (.locate address) (.locate address)
  | addressOf (obj : Label) : Action.Alike q (.addressOf obj) (.addressOf obj)
  | markOf (obj : Label) : Action.Alike q (.markOf obj) (.markOf obj)

/-- Operations that are the same but for their mode, and for modes within their code. -/
inductive Op.Alike (q : Prop) : Op → Op → Prop where
  | heap (op : HeapOp) : Op.Alike q (.heap op) (.heap op)
  | registry (op : RegistryOp) : Op.Alike q (.registry op) (.registry op)
  | units (op : UnitOp) : Op.Alike q (.units op) (.units op)
  | dispatch (op : DispatchOp) : Op.Alike q (.dispatch op) (.dispatch op)
  | invoke (method : Method) (mode mode' : CallMode) (args : List Argument)
      (name : Option Label) : Op.Alike q (.dispatch (.invoke method mode args name))
        (.dispatch (.invoke method mode' args name))
  | env {code code' : Code Action ActionReply EnvResult} :
      Code.Alike (Action.Alike q) Action.Told code code' → Op.Alike q (.env code) (.env code')

end

abbrev Behaviour.Alike {α : Type} (q : Prop) (c d : Behaviour α) : Prop :=
  Code.Alike (Action.Alike q) Action.Told c d

abbrev UnitModule.Alike (q : Prop) (m m' : UnitModule) : Prop :=
  ModuleOf.Alike (Action.Alike q) Action.Told m m'

abbrev Source.Alike (q : Prop) (s s' : Source) : Prop :=
  SourceOf.Alike (Action.Alike q) Action.Told s s'

/-- Programs that are the same but for the modes of their calls, with reserved providers if `q`. -/
abbrev Program.Alike (q : Prop) (p p' : Program) : Prop :=
  ProgramOf.Alike (Action.Alike q) Action.Told (Op.Alike q) (fun a => q → a.Immediate) p p'

end AccelHost
