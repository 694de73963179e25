import AccelHost.Proofs.AbreastOps

/-!
Collections are not observed. A run of operations by reference and of calls whose native code keeps
to its arguments comes to the same, wherever collections are added to it, between operations or
within native code: only addresses are different.
-/
namespace AccelHost

def StepAnswer.unplaced : StepAnswer → StepAnswer
  | .mk reply events => .mk reply.unplaced events

/-- The operations of a script, without the collections that were added. -/
def ownOps (script : List (Option Op)) : List Op := script.filterMap id

/-- The operations of a script, with the collections that were added. -/
def allOps (script : List (Option Op)) : List Op := script.map (·.getD (.heap .relocate))

/-- The answers to operations of a script, without those to the collections that were added. -/
def ownAnswers (script : List (Option Op)) (answers : List StepAnswer) : List StepAnswer :=
  (script.zip answers).filterMap fun e => e.1.map fun _ => e.2

variable {b : Bodies} {gs gs' : List Guard} {m m' : Machine} {n : Nested}

/-- An operation gets the same answer, but for the place that a guard tells. -/
theorem Op.answer_abreast (hn : n.Collects) (hblind : b.Blind) {op : Op} (hop : op.Managed)
    (hc : op.Confined n b m) (hr : ((op.answer n).after m).host.Roomy)
    (hr' : ((op.answer n).after m').host.Roomy) :
    Abreast b gs gs' m m' (op.answer n) (op.answer n) fun x y => y.unplaced = x.unplaced := by
  have hperform : Abreast b gs gs' { m with journal := [] } { m' with journal := [] }
      (op.perform n) (op.perform n) fun x y => y.unplaced = x.unplaced := by
    cases op with
    | heap op => exact op.abreast hop
    | dispatch op =>
      intro hb
      obtain ⟨hsame, hb₁⟩ := op.perform_abreast hn hblind
        (fun p values m₁ hcalls => hc op p values m₁ rfl hcalls) hr hr' hb
      exact ⟨(congrArg Reply.unplaced hsame).symm, hb₁⟩
    | registry | units | env => exact hop.elim
  refine .bind (.journaled hperform) fun x y _ _ hxy => .pure ?_
  obtain ⟨hreply, hevents⟩ := hxy
  simp only [StepAnswer.unplaced, hreply, hevents]

theorem ownOps_some (op : Op) (script : List (Option Op)) :
    ownOps (some op :: script) = op :: ownOps script := rfl

theorem allOps_some (op : Op) (script : List (Option Op)) :
    allOps (some op :: script) = op :: allOps script := rfl

theorem allOps_none (script : List (Option Op)) :
    allOps (none :: script) = .heap .relocate :: allOps script := rfl

theorem script_managed {script : List (Option Op)} (hops : ∀ op, some op ∈ script → op.Managed) :
    (∀ op ∈ ownOps script, op.Managed) ∧ ∀ op ∈ allOps script, op.Managed := by
  refine ⟨fun op hop => hops op (by simpa [ownOps] using hop), fun op hop => ?_⟩
  obtain ⟨o, ho, rfl⟩ := List.mem_map.1 hop
  cases o with
  | none => exact trivial
  | some op => exact hops op ho

/-- Scripts are followed on both machines, step by step. -/
theorem script_abreast (hn : n.Collects) (hblind : b.Blind) {script : List (Option Op)}
    (hops : ∀ op, some op ∈ script → op.Managed) (hc : n.Confines b (ownOps script) m)
    (hr : (((ownOps script).mapM (Op.answer n)).after m).host.Roomy)
    (hr' : (((allOps script).mapM (Op.answer n)).after m').host.Roomy) :
    Abreast b gs gs' m m' ((ownOps script).mapM (Op.answer n)) ((allOps script).mapM (Op.answer n))
      fun answers answers' => (ownAnswers script answers').map StepAnswer.unplaced =
        answers.map StepAnswer.unplaced := by
  induction script generalizing m m' with
  | nil => exact .pure rfl
  | cons o script ih =>
    have hrest : ∀ op, some op ∈ script → op.Managed := fun op h =>
      hops op (List.mem_cons_of_mem _ h)
    intro hb
    cases o with
    | none =>
      rw [allOps_none, List.mapM_cons] at hr' ⊢
      obtain ⟨hanswers, hb₂⟩ := ih hrest hc hr hr' hb.relocate_right
      exact ⟨hanswers, hb₂⟩
    | some op =>
      rw [ownOps_some, List.mapM_cons] at hr ⊢
      rw [allOps_some, List.mapM_cons] at hr' ⊢
      rw [ownOps_some] at hc
      have hop := hops op List.mem_cons_self
      have hkeeps := (Op.answer_keeps (n := n) (m := m) hn hop hb.left).1
      have hkeeps' := (Op.answer_keeps (n := n) (m := m') hn hop hb.right).1
      obtain ⟨hown, hall⟩ := script_managed hrest
      have hnow := (Op.answers_keeps hn hown hkeeps).2 hr
      have hnow' := (Op.answers_keeps hn hall hkeeps').2 hr'
      obtain ⟨hanswer, hb₁⟩ := Op.answer_abreast hn hblind hop hc.1 hnow hnow' hb
      obtain ⟨hanswers, hb₂⟩ := ih hrest hc.2 hr hr' hb₁
      exact ⟨congrArg₂ List.cons hanswer hanswers, hb₂⟩

/-! ### Operations that are confined -/

theorem Host.arguments_obj {h : Host} {name : Label} {r : ObjRef}
    (hr : h.objects.get? name = some r) : h.arguments [.obj name] = .ok [.ref (some r)] := by
  simp only [arguments, argument, hr]

theorem Op.confined_heap (op : HeapOp) : (Op.heap op).Confined n b m :=
  fun _ _ _ _ hop => nomatch hop

theorem Op.confined_entry (spec : EntrySpec) (name : Label) :
    (Op.dispatch (.entry spec name)).Confined n b m := by
  intro dispatch p values m₁ hop hcalls
  cases hop
  cases hcalls

theorem Op.confined_direct {entry : Label} {e : Entry} {func : CodeRef} {args : List Argument}
    {name : Option Label} {values : List Value} (he : m.host.entries.get? entry = some e)
    (htarget : e.target = .direct func) (hargs : m.host.arguments args = .ok values)
    (hc : ∀ body ∈ b.native func,
      ((CallPlan.ofEntry e func).marshal m.host.heap values).2.Confines
        (.ofResult e.convention.result) body) :
    (Op.dispatch (.invokeEntry entry args name)).Confined n b m := by
  intro dispatch p values' m₁ hop hcalls
  cases hop
  cases hcalls with
  | @invokeEntry _ e' _ _ values' p he' hargs' hlower =>
    obtain rfl : e = e' := Option.some.inj (he.symm.trans he')
    obtain rfl : values = values' := Except.ok.inj (hargs.symm.trans hargs')
    have hfunc : Dispatch.nativeFunc n e = pure (some func) := by
      simp only [Dispatch.nativeFunc, htarget]
    rw [Dispatch.after_lower, Dispatch.asked, hfunc, Work.after_pure, ite_self]
    rw [Dispatch.result_lower, hfunc, Work.result_pure] at hlower
    split at hlower
    · cases hlower
      intro s code m₁ hentered body hbody
      have hbegins := hc body hbody
      rwa [hentered.handed] at hbegins
    · cases hlower

/-- Collections are not observed. A machine whose blocks lie where its map has them, and whose pins
and guards tally, is given native code that keeps to its arguments. It follows a script once without
the collections that were added to it, between operations and within native code, and once with
them; all blocks lie at addresses at the end of both, and no count of pins wrapped. Then all
operations are answered alike, with the same journals, and the machines in the end are the same:
what they named, compiled, called and traced, and every cell of the heap. Only addresses differ. -/
theorem relocation_unobservable (depth : Nat) {b : Bodies} {gs : List Guard} {m : Machine}
    {script : List (Option Op)} (hblind : b.Blind)
    (hlaid : m.host.heap.Laid m.host.addressLimit) (htallied : m.host.Tallied gs)
    (hops : ∀ op, some op ∈ script → op.Managed)
    (hconfined : (Nested.ofDepth depth).Confines b (ownOps script) (m.equipped b false)) :
    let own := (ownOps script).mapM (Op.answer (.ofDepth depth))
    let all := (allOps script).mapM (Op.answer (.ofDepth depth))
    let m₁ := own.after (m.equipped b false)
    let m₂ := all.after (m.equipped b true)
    m₁.host.Roomy → m₂.host.Roomy →
      (ownAnswers script (all.result (m.equipped b true))).map StepAnswer.unplaced =
        (own.result (m.equipped b false)).map StepAnswer.unplaced ∧
      m₂.unplaced = m₁.unplaced ∧
      ∀ r, (m₂.host.heap.cell? r).map Cell.unplaced = (m₁.host.heap.cell? r).map Cell.unplaced := by
  intro own all m₁ m₂ hr hr'
  have hbegin : (m.equipped b false).Beside b gs gs (m.equipped b true) :=
    ⟨rfl, ⟨rfl, rfl, hlaid, fun _ => ⟨htallied.heap, htallied.labels⟩⟩,
      ⟨rfl, rfl, hlaid, fun _ => ⟨htallied.heap, htallied.labels⟩⟩⟩
  obtain ⟨hanswers, hend⟩ := script_abreast (Nested.collects_ofDepth depth) hblind hops hconfined
    hr hr' hbegin
  refine ⟨hanswers, hend.same, fun r => ?_⟩
  have hheap : m₂.host.heap.unplaced = m₁.host.heap.unplaced := congrArg Host.heap hend.host
  rw [← Heap.cell?_unplaced, hheap, Heap.cell?_unplaced]

/-- Copies the first number of an array over the second, collects before and after that, and returns
where the second number is. -/
def copying : Bodies where
  native _ := some fun _ => .load 0 0 4 fun w =>
    .collect <| .store 0 4 4 w <| .collect <| .done <| .pointer 0 4
  provider _ := none

def copyEntry : Entry where
  unit := DispatchOp.singleUnit
  method := ⟨"Copy", "copy", "([I)[I"⟩
  nativeName := "copy"
  target := .direct ⟨none, "copy"⟩
  convention := ⟨false, [.array .int], .array .int⟩

def copyScript : List (Option Op) :=
  [some (.heap (.newArrayFrom .int [5, 7] "a")),
    some (.dispatch (.entry ⟨none, copyEntry.method, copyEntry.nativeName, some ⟨none, "copy"⟩,
      none, copyEntry.convention.toTags⟩ "copy")),
    none, some (.dispatch (.invokeEntry "copy" [.obj "a"] (some "b"))), none,
    some (.heap (.read .int "b"))]

theorem confines_copyScript : (Nested.ofDepth 1).Confines copying (ownOps copyScript)
    ((Machine.ofProgram oneArray).equipped copying false) := by
  have htarget : copyEntry.target = .direct ⟨none, "copy"⟩ := rfl
  refine ⟨Op.confined_heap _, Op.confined_entry _ _, ?_, Op.confined_heap _, trivial⟩
  refine Op.confined_direct (e := copyEntry) ?_ htarget (Host.arguments_obj (r := ⟨0, 0⟩) ?_) ?_
  · decide +kernel
  · decide +kernel
  · decide +kernel

/-- The array lies elsewhere in the end, and nothing else is different. -/
theorem relocation_unobservable_copy :
    let own := (ownOps copyScript).mapM (Op.answer (.ofDepth 1))
    let all := (allOps copyScript).mapM (Op.answer (.ofDepth 1))
    let m := Machine.ofProgram oneArray
    let m₁ := own.after (m.equipped copying false)
    let m₂ := all.after (m.equipped copying true)
    (m₂.host.heap.cell? ⟨0, 0⟩).map (·.base) ≠ (m₁.host.heap.cell? ⟨0, 0⟩).map (·.base) ∧
      (ownAnswers copyScript (all.result (m.equipped copying true))).map StepAnswer.unplaced =
        (own.result (m.equipped copying false)).map StepAnswer.unplaced ∧
      m₂.unplaced = m₁.unplaced ∧
      ∀ r, (m₂.host.heap.cell? r).map Cell.unplaced = (m₁.host.heap.cell? r).map Cell.unplaced := by
  intro own all m m₁ m₂
  have hblind : copying.Blind := fun func body h => by cases h
  have hlaid : m.host.heap.Laid m.host.addressLimit := Host.laid_ofProgram (by decide)
  have htallied : m.host.Tallied [] := Host.tallied_ofProgram oneArray
  have hops : ∀ op, some op ∈ copyScript → op.Managed := by
    simp [copyScript, Op.Managed, HeapOp.ByReference]
  have hroom : m₁.host.Roomy := ⟨by decide +kernel, by decide +kernel⟩
  have hroom' : m₂.host.Roomy := ⟨by decide +kernel, by decide +kernel⟩
  refine ⟨by decide +kernel, ?_⟩
  unfold m₁ m₂ own all
  exact relocation_unobservable 1 hblind hlaid htallied hops confines_copyScript hroom hroom'

/-- The same array with as many pins as are counted. Pinned once more for the call it has none, so
that it moves within the native function if there is a collection, and what is stored then is
lost. -/
theorem relocation_observed_among_pins :
    let p := Program.pinning { oneArray with steps := ownOps (copyScript.take 2) } "a" mostPins
    let m := (p.steps.mapM (Op.answer (.ofDepth 1))).after (.ofProgram p)
    let script := [some (.dispatch (.invokeEntry "copy" [.obj "a"] none)),
      some (.heap (.read .int "a"))]
    let own := (ownOps script).mapM (Op.answer (.ofDepth 1))
    let all := (allOps script).mapM (Op.answer (.ofDepth 1))
    m.host.heap.Laid m.host.addressLimit ∧ m.host.Tallied [] ∧
      (Nested.ofDepth 1).Confines copying (ownOps script) (m.equipped copying false) ∧
      (own.after (m.equipped copying false)).host.heap.readArray .int ⟨0, 0⟩ = .ok [5, 5] ∧
      (all.after (m.equipped copying true)).host.heap.readArray .int ⟨0, 0⟩ = .ok [5, 7] := by
  intro p m script own all
  have hmoves : Moves [] (.ofProgram p) [] m :=
    answers_carries (G := []) (Nested.lawful_ofDepth 1) p.steps (Machine.orderly_ofProgram p)
  refine ⟨(hmoves.laid (Host.laid_ofProgram (by decide))).1, ?_⟩
  have haccounts : m.host.heap.wrapped = false → m.Accounts [] ([] ++ []) :=
    (Machine.Accounts.ofProgram p).moves hmoves
  have hpinned := Program.after_pinning (.ofDepth 1)
    { oneArray with steps := ownOps (copyScript.take 2) } "a" ⟨0, 0⟩ (by decide +kernel)
    (by decide +kernel) rfl le_rfl
  have hm : m = _ := hpinned
  rw [hm] at haccounts ⊢
  refine ⟨(haccounts (by decide +kernel)).tallied, ?_, by decide +kernel, by decide +kernel⟩
  have htarget : copyEntry.target = .direct ⟨none, "copy"⟩ := rfl
  refine ⟨?_, Op.confined_heap _, trivial⟩
  refine Op.confined_direct (e := copyEntry) ?_ htarget (Host.arguments_obj (r := ⟨0, 0⟩) ?_) ?_
  · decide +kernel
  · decide +kernel
  · decide +kernel

end AccelHost
