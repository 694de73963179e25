import AccelHost.Proofs.PairedUnits
import AccelHost.Proofs.Retained
import AccelHost.Samples.Math

/-!
Calls that are interpreted and calls that are compiled are indistinguishable. Two programs that
differ only in the modes of their calls, at any depth, get the same answers at every step, call the
same native functions and providers with the same arguments, and leave the same heap. What may
differ is how many calls are compiled.
-/
namespace AccelHost

open Holding

variable {n : Nested} {q : Prop} {G : List UnitHandle} {m m' : Machine} {r : Registry}

namespace Startup

def left (G : List UnitHandle) : Except StartupError Registry → List UnitHandle
  | .ok r => r.handles ++ G
  | .error _ => G

theorem loadAll_twin_of_declared (hn : n.Fair q) {options : List UnitOption} (ho : m.Orderly G)
    (t : m.Twin q m') (he : m.host.settings.enabled = true)
    (hp : parseAll m.host.settings.units = .ok options)
    (hr : (declareAll {} options).result m = .ok r) :
    (loadAll n r).result ((declareAll {} options).after m) =
        (loadAll n r).result ((declareAll {} options).after m') ∧
      ((loadAll n r).after ((declareAll {} options).after m)).Twin q
        ((loadAll n r).after ((declareAll {} options).after m')) := by
  obtain ⟨_, t₁⟩ := declareAll_twin options {} t
  by_cases hd : (options.map (·.feature)).Nodup
  · have hdecl := declares_eq he hp hd
    obtain ⟨hres, haft⟩ := declareAll_of_nodup (m := m) (r := {}) options (by simpa using hd)
    have hafter : (declareAll {} options).after m = m.afterDeclares := by
      rw [haft, Machine.afterDeclares, hdecl, length_declared]
    obtain ⟨ho₁, _⟩ := orderly_afterDeclares (X := []) ho (moves_afterDeclares [] m)
    rw [hres, List.nil_append, ← hdecl] at hr
    cases hr
    rw [hafter] at t₁ ⊢
    exact (loadAll_paired hn (fun x hx => List.mem_append_left _ hx) ho₁ t₁).2
  · obtain ⟨e, _, hres, _⟩ :=
      declareAll_of_not_nodup (m := m) (r := {}) options (by simpa using hd) (by simp)
    rw [hres] at hr
    cases hr

theorem initAll_paired (hn : n.Fair q) :
    Paired q G m m' (initAll n) (initAll n) Eq (left G) := by
  intro ho t
  have horder := ((initAll_carries (X := []) hn.lawful ho).orderly ho).1
  have hfinal : (initAll n).result m = (initAll n).result m' ∧
      ((initAll n).after m).Twin q ((initAll n).after m') := by
    have hsettings : m'.host.settings = m.host.settings :=
      t.host.same (·.settings) fun _ _ _ _ _ _ => rfl
    unfold initAll
    simp only [Work.result_bind, Work.after_bind, Work.result_host, Work.after_host, hsettings]
    by_cases he : m.host.settings.enabled = true
    · simp only [he, Bool.not_true, Bool.false_eq_true, ↓reduceIte]
      cases hp : parseAll m.host.settings.units with
      | error e => exact ⟨rfl, t⟩
      | ok options =>
        obtain ⟨hsame, t₁⟩ := declareAll_twin options {} t
        simp only [Work.result_bind, Work.after_bind, hsame]
        cases hr : (declareAll {} options).result m with
        | error e => exact ⟨rfl, t₁⟩
        | ok r => exact loadAll_twin_of_declared hn ho t he hp hr
    · simp only [he, Bool.not_false, ↓reduceIte]
      exact ⟨rfl, t⟩
  refine ⟨?_, hfinal⟩
  generalize (initAll n).result m = res at horder ⊢
  cases res with
  | error e => exact horder
  | ok r => simpa [left] using horder

end Startup

/-! ### Runtimes -/

namespace Host.Twin

variable {h h' : Host}

/-- A runtime that is new has nothing compiled. -/
theorem serve (t : h.Twin q h') (r : Registry) : (h.serve r).Twin q (h'.serve r) := by
  cases t with
  | @mk source native provider modules _ locks hs hn hp hm _ hq =>
    have hserve : (h.serve r).Twin q ((h.serve r).recast source native provider modules [] locks) :=
      .mk hs hn hp hm (fun _ _ _ _ hmem => by cases hmem) hq
    exact hserve

theorem runtime (t : h.Twin q h') :
    Option.Rel (fun a b => ∃ compiled, b = a.recompiled compiled) h.runtime h'.runtime := by
  cases t with
  | @mk _ _ _ _ compiled =>
    simp only [recast]
    cases h.runtime with
    | none => exact .none
    | some rt => exact .some ⟨compiled, rfl⟩

theorem retire (t : h.Twin q h') :
    ({ h with runtime := none } : Host).Twin q { h' with runtime := none } := by
  cases t with
  | @mk source native provider modules _ locks hs hn hp hm _ hq =>
    have hretired : ({ h with runtime := none } : Host).Twin q
        (({ h with runtime := none } : Host).recast source native provider modules [] locks) :=
      .mk hs hn hp hm (fun _ h => by cases h) hq
    exact hretired

end Host.Twin

namespace UnitOp

theorem dropPending?_paired : Agree q G m m' dropPending? dropPending? := by
  refine .host fun _ t => ?_
  rw [t.host.same (·.pending) fun _ _ _ _ _ _ => rfl]
  cases hr : m.host.pending with
  | none => exact .pure rfl
  | some r =>
    refine .modifyHost (J := r.handles ++ G) (fun ho => ?_) (fun t => t.withPending none)
      fun m m' => ?_
    · have hm := ((Moves.resume (X := []) hr).orderly (G := G) ho).1
      simpa using hm
    · have hrelease : Agree q (r.handles ++ G) m m' (Startup.releaseAll r) (Startup.releaseAll r) :=
        Startup.releaseAll_paired fun x hx => List.mem_append_left _ hx
      exact hrelease.discard.bind fun _ _ _ _ _ => .pure rfl

theorem withRuntime?_paired {α : Type} {f : Runtime → Work α}
    (hf : ∀ rt compiled (m m' : Machine), Agree q (rt.registry.handles ++ G) m m' (f rt)
      (f (rt.recompiled compiled))) :
    Agree q G m m' (withRuntime? f) (withRuntime? f) := by
  refine .host fun ho t => ?_
  have hr := t.host.runtime
  cases hrt : m.host.runtime with
  | none =>
    rw [hrt] at hr
    generalize m'.host.runtime = rt' at hr ⊢
    cases hr
    exact .pure rfl
  | some rt =>
    rw [hrt] at hr
    generalize m'.host.runtime = rt' at hr ⊢
    cases hr with
    | some h =>
      obtain ⟨compiled, rfl⟩ := h
      refine .modifyHost (J := rt.registry.handles ++ G) (fun ho => ?_) (fun t => t.retire)
        fun m m' => (hf rt compiled m m').discard.bind fun _ _ _ _ h => .pure (by rw [h])
      have hm := ((Moves.retire (X := []) hrt).orderly (G := G) ho).1
      simpa using hm

theorem suspend_paired (hr : m.host.Holds .activePending r) :
    Paired q (r.handles ++ G) m m' (suspend r) (suspend r) Eq fun _ => G := by
  intro ho t
  have horder := ((suspend_carries (X := []) (G := G) hr (by simpa using ho)).orderly
    (G := G) (by simpa using ho)).1
  obtain ⟨_, _, t₁⟩ := dropPending?_paired ho t
  exact ⟨horder, rfl, t₁.withHost (t₁.host.withPending (some r))⟩

theorem result_install (r : Registry) :
    (Startup.publish r >>= install n).result m = .ok (.units r.units) := by
  have hbefore : ((Startup.publish r).after m).host.runtime = m.host.runtime := rfl
  unfold install
  simp only [Work.result_bind, Work.result_host, Work.after_host, hbefore]
  cases m.host.runtime <;> rfl

theorem install_paired (hn : n.Fair q) (hr : m.host.Holds .active r) :
    Paired q (r.handles ++ G) m m' (Startup.publish r >>= install n)
      (Startup.publish r >>= install n) Eq fun _ => G := by
  intro ho t
  have horder := ((install_carries (X := []) (G := G) hn.lawful hr (by simpa using ho)).orderly
    (G := G) (by simpa using ho)).1
  refine ⟨horder, by rw [result_install, result_install], ?_⟩
  have hrt := t.host.runtime
  have t₁ := t.withHost (t.host.serve r)
  rw [after_install, after_install]
  cases hold : m.host.runtime with
  | none =>
    rw [hold] at hrt
    generalize m'.host.runtime = rt' at hrt ⊢
    cases hrt
    exact t₁
  | some old =>
    rw [hold] at hrt
    generalize m'.host.runtime = rt' at hrt ⊢
    cases hrt with
    | some h =>
      obtain ⟨compiled, rfl⟩ := h
      have ho₁ := ((serve_moves (X := []) hold hr).orderly (G := G) (by simpa using ho)).1
      rw [units_append, units_ofUnits, units_nil, List.append_nil] at ho₁
      exact (Startup.drop_paired hn compiled (fun x hx => List.mem_append_left _ hx) ho₁ t₁).2.2

theorem postInitAll_paired (hn : n.Fair q) (hr : m.host.Holds .activePending r) :
    Paired q (r.handles ++ G) m m' (Startup.postInitAll n r) (Startup.postInitAll n r) Eq
      (Startup.left G) := by
  intro ho t
  have horder := ((Startup.postInitAll_carries (X := []) (G := G) hn.lawful hr
    (by simpa using ho)).orderly (G := G) (by simpa using ho)).1
  refine ⟨?_, (Startup.postInitAll_paired hn (fun x hx => List.mem_append_left _ hx) ho t).2⟩
  generalize (Startup.postInitAll n r).result m = res at horder ⊢
  cases res with
  | error e => exact horder
  | ok r => simpa [Startup.left] using horder

theorem complete_paired (hn : n.Fair q) (hr : m.host.Holds .activePending r) :
    Paired q (r.handles ++ G) m m' (complete n r) (complete n r) Eq fun _ => G := by
  refine .bind_at (postInitAll_paired hn hr) fun ho hres => ?_
  rw [← hres]
  cases h : (Startup.postInitAll n r).result m with
  | error e => exact .pure rfl
  | ok r' =>
    exact install_paired hn (Startup.holds_of_postInitAll (X := []) (G := G) hn.lawful
      (by simpa using ho) hr h)

theorem query_eq {h h' : Host} (t : h.Twin q h') (op : UnitOp) : query h' op = query h op := by
  cases t with
  | mk =>
    cases op <;> unfold query Host.recast <;> cases h.runtime <;> rfl

/-- The state in short is told alike, but for the number of compiled calls. -/
theorem tellState_paired (identifiers : List String) :
    Paired q G m m' (tellState identifiers) (tellState identifiers)
      (Op.units (.describe identifiers)).Tells fun _ => G := by
  have hcounts : Paired q G m m' counts counts
      (Option.Rel fun a b => a.1 = b.1) fun _ => G := by
    refine .host fun ho t => ?_
    have hr := t.host.replacements? ho.host
    generalize m.host.replacements? = a at hr ⊢
    generalize m'.host.replacements? = b at hr ⊢
    cases hr with
    | none => exact .pure .none
    | some hs =>
      obtain ⟨_, _, hs⟩ := hs
      rw [hs]
      exact .bind (Dispatch.compiledCount_paired _ _) fun _ _ _ _ _ => .pure (.some rfl)
  refine .bind hcounts fun a b m m' hab => .host fun _ t => .pure ?_
  have hheap : m'.host.heap = m.host.heap := t.host.same (·.heap) fun _ _ _ _ _ _ => rfl
  have hknown : m'.host.source.contains = m.host.source.contains := by
    have hs := t.host.source
    generalize m.host.source = a at hs ⊢
    generalize m'.host.source = b at hs ⊢
    cases hs
    rfl
  rw [hheap, hknown]
  cases hab with
  | none => exact .same _ _
  | @some x y hxy =>
    obtain ⟨entries, count⟩ := x
    obtain ⟨entries', count'⟩ := y
    cases hxy
    exact .describe ..

theorem perform_postInitAll : UnitOp.postInitAll.perform n = (do
    match (← Work.host).pending with
    | none => return .error .noPending
    | some r => do
      Work.modifyHost fun h => { h with pending := none }
      complete n r : Work Reply) := by
  unfold perform complete
  refine congrArg (Work.host >>= ·) (funext fun h => ?_)
  cases h.pending with
  | none => rfl
  | some r =>
    refine congrArg (Work.modifyHost _ >>= ·) (funext fun _ => ?_)
    refine congrArg (Startup.postInitAll n r >>= ·) (funext fun res => ?_)
    cases res <;> rfl

theorem perform_paired (hn : n.Fair q) (op : UnitOp) :
    Paired q G m m' (op.perform n) (op.perform n) (Op.units op).Tells fun _ => G := by
  have same {w w' : Work Reply} (h : Agree q G m m' w w') :
      Paired q G m m' w w' (Op.units op).Tells fun _ => G :=
    h.imp (fun a b hab => hab ▸ .same _ a) fun _ _ ho => ho
  cases op with
  | start =>
    rw [perform_start]
    refine same (.bind_at (Startup.initAll_paired hn) fun ho hres => ?_)
    rw [← hres]
    cases h : (Startup.initAll n).result m with
    | error e => exact .pure rfl
    | ok r => exact complete_paired hn (Startup.holds_of_initAll (X := []) hn.lawful ho h)
  | initAll =>
    refine same (.bind_at (Startup.initAll_paired hn) fun ho hres => ?_)
    rw [← hres]
    cases h : (Startup.initAll n).result m with
    | error e => exact .pure rfl
    | ok r => exact suspend_paired (Startup.holds_of_initAll (X := []) hn.lawful ho h)
  | postInitAll =>
    rw [perform_postInitAll]
    refine same (.host fun ho t => ?_)
    rw [t.host.same (·.pending) fun _ _ _ _ _ _ => rfl]
    cases hr : m.host.pending with
    | none => exact .pure rfl
    | some r =>
      intro ho t
      have hholds : (m.withHost { m.host with pending := none }).host.Holds .activePending r :=
        (ho.host.pending r hr).mono rfl fun _ _ => rfl
      have ho₁ := ((Moves.resume (X := []) hr).orderly (G := G) ho).1
      rw [units_append, units_ofUnits, units_nil, List.append_nil] at ho₁
      exact complete_paired hn hholds ho₁ (t.withHost (t.host.withPending none))
  | dropPending =>
    refine same (.bind dropPending?_paired fun a _ _ _ ha => ?_)
    subst ha
    cases a <;> exact .pure rfl
  | emptyRuntime =>
    have hempty : m.host.Holds .active {} := ⟨(fun _ h => by cases h), by simp⟩
    exact same ((install_paired (G := G) hn hempty).bind fun _ _ _ _ _ => .pure rfl)
  | shutdown =>
    refine same (.bind (withRuntime?_paired fun rt compiled m m' => ?_) fun a _ _ _ ha => ?_)
    · exact Startup.shutdown_paired hn compiled fun x hx => List.mem_append_left _ hx
    · subst ha
      cases a <;> exact .pure rfl
  | dropRuntime =>
    refine same (.bind (withRuntime?_paired fun rt compiled m m' => ?_) fun a _ _ _ ha => ?_)
    · exact Startup.drop_paired hn compiled fun x hx => List.mem_append_left _ hx
    · subst ha
      cases a <;> exact .pure rfl
  | units | runtime | flags => exact same (.host fun _ t => .pure (query_eq t.host _).symm)
  | describe identifiers => exact tellState_paired identifiers

end UnitOp

/-! ### Runs -/

namespace Op

theorem perform_paired (hn : n.Fair q) {op op' : Op} (h : Op.Alike q op op') :
    Paired q G m m' (op.perform n) (op'.perform n) op.Tells fun _ => G := by
  have same {op : Op} {w w' : Work Reply} (h : Agree q G m m' w w') :
      Paired q G m m' w w' op.Tells fun _ => G :=
    h.imp (fun a b hab => hab ▸ .same _ a) fun _ _ ho => ho
  cases h with
  | heap op => exact same (HeapOp.perform_paired op)
  | registry op => exact same (RegistryOp.perform_paired op)
  | units op => exact UnitOp.perform_paired hn op
  | dispatch op => exact DispatchOp.perform_paired hn op
  | invoke method mode mode' args name =>
    exact same (DispatchOp.invoke_paired hn method mode mode' args name)
  | env h =>
    refine same (.bind (.runCode hn h) fun result _ _ _ hr => ?_)
    subst hr
    cases result <;> exact .pure rfl

theorem answer_paired (hn : n.Fair q) {op op' : Op} (h : Op.Alike q op op') :
    Paired q G m m' (op.answer n) (op'.answer n) op.Told fun _ => G := by
  refine .bind (.journaled fun _ _ => perform_paired hn h) fun a b _ _ hab => .pure ?_
  obtain ⟨reply, events⟩ := a
  obtain ⟨hreply, hevents⟩ := hab
  rw [← hevents]
  exact .mk hreply events

theorem answers_paired (hn : n.Fair q) {ops ops' : List Op}
    (h : List.Forall₂ (Op.Alike q) ops ops') :
    Paired q G m m' (ops.mapM (answer n)) (ops'.mapM (answer n)) (AllTold ops) fun _ => G := by
  induction h generalizing m m' with
  | nil => exact .pure (.nil [])
  | cons hop _ ih =>
    rw [List.mapM_cons, List.mapM_cons]
    exact .bind (answer_paired hn hop) fun x y _ _ hxy =>
      .bind ih fun xs ys _ _ hs => .pure (.cons hxy hs)

end Op

theorem closeHost_paired (hn : n.Fair q) : Agree q G m m' (closeHost n) (closeHost n) := by
  unfold closeHost
  refine .modifyHost (J := G) (fun ho => ho.of_same rfl { Host.Same.refl _ with } rfl)
    (fun t => ?_) fun m m' => .bind UnitOp.dropPending?_paired fun _ _ _ _ _ => ?_
  · cases t with | mk hs hn hp hm hc hq => exact .mk hs hn hp hm hc hq
  · refine .bind (UnitOp.withRuntime?_paired fun rt compiled m m' => ?_) fun _ _ _ _ _ => .pure rfl
    exact Startup.drop_paired hn compiled fun x hx => List.mem_append_left _ hx

theorem runSteps_paired (hn : n.Fair q) {ops ops' : List Op}
    (h : List.Forall₂ (Op.Alike q) ops ops') :
    Paired q G m m' (runSteps n ops) (runSteps n ops') (Op.RunTold ops) fun _ => G := by
  refine .bind (Op.answers_paired hn h) fun xs ys _ _ hs => ?_
  refine .bind (.journaled fun _ _ => closeHost_paired hn) fun a b _ _ hab => .pure ?_
  obtain ⟨_, closing⟩ := a
  obtain ⟨_, hclosing⟩ := hab
  rw [← hclosing]
  exact .mk hs closing

theorem Host.twin_ofProgram {p p' : Program} (h : Program.Alike q p p') :
    (Host.ofProgram p).Twin q (.ofProgram p') := by
  cases h with
  | @mk settings layout allocator source source' native native' provider provider' steps _ hs hn hp
      hr hr' =>
    let host := Host.ofProgram ⟨settings, layout, allocator, source, native, provider, steps⟩
    have htwin : host.Twin q (host.recast source' native' provider' [] [] []) :=
      .mk hs hn hp .nil (fun _ h => by cases h) fun hq =>
        ⟨⟨rfl, fun code f hf name data => (hr code f hf name data).imp fun _ ha => ha hq⟩,
          rfl, fun code f hf name data => (hr' code f hf name data).imp fun _ ha => ha hq⟩
    exact htwin

namespace Machine.Twin

theorem enter (t : m.Twin q m') {p p' : Program} (h : Program.Alike q p p') :
    (m.enter p).Twin q (m'.enter p') := by
  cases t with
  | mk hh hw hs => exact .mk (m := m.enter p) (Host.twin_ofProgram h) (.cons hh hw) hs

theorem leave (t : m.Twin q m') : m.leave.Twin q m'.leave := by
  obtain ⟨host, waiting, next, journal, trace, stuck⟩ := m
  cases t with
  | mk hh hw hs =>
    cases hw with
    | nil => exact .mk hh .nil hs
    | cons hhost hrest => exact .mk hhost hrest hs

end Machine.Twin

theorem runNested_paired (hn : n.Fair q) {p p' : Program} (h : Program.Alike q p p') :
    Paired q G m m' (runNested n p) (runNested n p') (Op.RunTold p.steps) fun _ => G := by
  have hsteps : List.Forall₂ (Op.Alike q) p.steps p'.steps := by
    cases h with | mk _ _ _ _ _ hs => exact hs
  intro ho t
  obtain ⟨ho₁, hr, t₁⟩ := runSteps_paired hn hsteps (ho.enter p) (t.enter h)
  exact ⟨ho₁.leave, hr, t₁.leave⟩

/-- At every depth, operations and programs that are alike go side by side. -/
theorem Nested.fair_ofDepth (depth : Nat) : (ofDepth depth).Fair q := by
  induction depth with
  | zero =>
    refine ⟨lawful_zero, fun _ _ _ _ => .pure ?_, fun {p _} _ _ _ _ => .pure ?_⟩
    · exact .mk (.same _ _) []
    · exact .mk (.nil p.steps) []
  | succ depth ih =>
    exact ⟨lawful_ofDepth (depth + 1), fun h _ _ _ => Op.answer_paired ih h,
      fun h _ _ _ => runNested_paired ih h⟩

/-- The machine after the first operations of a program. -/
def Program.after (n : Nested) (p : Program) (k : Nat) : Machine :=
  ((p.steps.take k).mapM (Op.answer n)).after (.ofProgram p)

/-- Replacements that a runtime had at some step are retained at the end of the steps. -/
theorem Program.retained {p : Program} (hn : n.Lawful) (k : Nat) {rt : Runtime}
    (hrt : (p.after n k).host.runtime = some rt) :
    Retained ((p.steps.mapM (Op.answer n)).after (.ofProgram p)) rt.replacements := by
  have hfirst := answers_carries (X := []) hn (p.steps.take k) (Machine.orderly_ofProgram p)
  have ho := (hfirst.orderly (G := []) (Machine.orderly_ofProgram p)).1
  have hlater := answers_carries (X := []) (G := []) hn (p.steps.drop k) ho
  have hafter : (p.steps.mapM (Op.answer n)).after (.ofProgram p) =
      ((p.steps.drop k).mapM (Op.answer n)).after (p.after n k) := by
    conv_lhs => rw [← List.take_append_drop k p.steps, List.mapM_append]
    rfl
  rw [hafter]
  exact (Retained.of_runtime ho.host hrt).later hlater.around

def Program.isStuck (p : Program) : Bool :=
  ((runSteps (.ofDepth maxDepth) p.steps).after (.ofProgram p)).stuck

/-- A program with a unit whose entry `outer` calls its entry `inner`. Both are called in a mode,
and then the runtime is shut down. -/
def twoEntries (mode : CallMode) : Program where
  settings := { enabled := true, units := ["libNest_1"] }
  source :=
    { load := fun _ => .ok
        { location := "nest"
          init := some fun _ => .done Status.ok
          exports := some (.done (some ⟨abiVersion, 2, some
            [Samples.Math.entry "Nest" "outer" "()I" "outer" (some ⟨none, "outer"⟩) none [5],
              Samples.Math.entry "Nest" "inner" "()I" "inner" (some ⟨none, "inner"⟩) none [5]]⟩)) }
      contains := fun _ => true }
  native := fun func => some fun _ =>
    if func.symbol = "outer" then
      .ask (.step (.dispatch (.invoke ⟨"Nest", "inner", "()I"⟩ mode [] none))) fun _ => .done 1
    else .done 2
  provider := fun _ => none
  steps := [.units .start, .dispatch (.invoke ⟨"Nest", "outer", "()I"⟩ mode [] none),
    .dispatch .compiledCount, .units .shutdown]

theorem alike_twoEntries (mode mode' : CallMode) :
    Program.Alike True (twoEntries mode) (twoEntries mode') := by
  refine .mk (.mk fun _ => .ok ?_) (fun func => .some fun _ => ?_) (fun _ => .none)
    (fun _ _ hf => by cases hf) (fun _ _ hf => by cases hf) ?_
  · exact .mk (.some fun _ => .done _) .none .none (.some (.done _))
  · by_cases hf : func.symbol = "outer"
    · simp only [hf, ↓reduceIte]
      exact .ask (.step (.invoke ..)) fun _ _ _ => .done 1
    · simp only [hf, ↓reduceIte]
      exact .done 2
  · exact .cons (.units _) (.cons (.invoke ..) (.cons (.dispatch _) (.cons (.units _) .nil)))

theorem refused_twoEntries (mode : CallMode) :
    ((twoEntries mode).after (.ofDepth 2) 2).host.runtime.map (fun rt =>
      (Dispatch.invoke (.ofDepth 2) rt.replacements ⟨"Nest", "outer", "()I"⟩ mode []).result
        (((twoEntries mode).steps.mapM (Op.answer (.ofDepth 2))).after
          (.ofProgram (twoEntries mode)))) =
      some (.error (.unitUnloaded ⟨"Nest", "outer", "()I"⟩ "libNest_1")) := by
  cases mode <;> decide +kernel

/-- A program with a unit whose entry `outer` has a provider that calls the entry `inner`. -/
def callingProvider (mode : CallMode) : Program where
  settings := { enabled := true, units := ["libNest_1"] }
  source :=
    { load := fun _ => .ok
        { location := "nest"
          init := some fun _ => .done Status.ok
          exports := some (.done (some ⟨abiVersion, 2, some
            [Samples.Math.entry "Nest" "outer" "()I" "outer" (some ⟨none, "f"⟩)
                (some ⟨none, "provider"⟩) [5],
              Samples.Math.entry "Nest" "inner" "()I" "inner" (some ⟨none, "f"⟩) none [5]]⟩)) }
      contains := fun _ => true }
  native := fun _ => some fun _ => .done 2
  provider := fun _ => some fun _ data =>
    .ask (.step (.dispatch (.invoke ⟨"Nest", "inner", "()I"⟩ mode [] none))) fun _ => .done data
  steps := [.units .start, .dispatch (.invoke ⟨"Nest", "outer", "()I"⟩ mode [] none)]

-- Here the modes differ: compiled, `inner` waits for what the call of `outer` has locked.
example : ((callingProvider .compiled).after (.ofDepth 2) 2).stuck = true ∧
    ((callingProvider .interpreted).after (.ofDepth 2) 2).stuck = false := by decide +kernel

end AccelHost
