import AccelHost.Proofs.Records

/-!
Operations on entries, on the heap and on the bare registry with their chronicles. A provider is
asked where a native function is looked for, and a method is compiled where its entry was lowered;
everything else does nothing with entries.
-/
namespace AccelHost

open Holding

variable {n : Nested} {j : Nat} {G K : List UnitHandle} {m : Machine}

namespace Dispatch

variable {e : Entry} {provider : CodeRef} {data : Option CodeRef}

theorem after_askProvider (hname : '\x00' ∉ e.nativeName.toList) :
    (askProvider n e provider data).after m =
      (match m.host.provider provider with
        | some code => n.runCode (code e.nativeName data)
        | none => pure none).after
        { m with trace := m.trace ++ [TraceEvent.asked e.id provider e.nativeName data] } := by
  have hcontains : e.nativeName.toList.contains '\x00' = false := by simpa using hname
  cases hp : m.host.provider provider <;>
    simp only [askProvider, hcontains, Bool.false_eq_true, ↓reduceIte, Work.after_bind,
      Work.after_trace, Work.result_host, Work.after_host, hp]

theorem askProvider_records (hn : n.Recorded j) (hd : m.Discreet G K) (provider : CodeRef)
    (data : Option CodeRef)
    (hname : '\x00' ∉ e.nativeName.toList) :
    let m₁ : Machine :=
      { m with trace := m.trace ++ [.asked e.id provider e.nativeName data] }
    ∃ ds, Chronicle K j m₁ ds ((askProvider n e provider data).after m) ∧ Dealing.own ds = [] ∧
      ((askProvider n e provider data).after m).Discreet G K := by
  intro m₁
  have hd₁ : m₁.Discreet G K := hd.told _
  rw [after_askProvider hname]
  cases m.host.provider provider with
  | some code =>
    obtain ⟨hd₂, ds, hds, hos⟩ := hn.runCode hd₁ (code e.nativeName data)
    exact ⟨ds, hds, hos, hd₂⟩
  | none => exact ⟨[], .refl K m₁, rfl, hd₁⟩

theorem nativeFunc_recounts (hn : n.Recorded j) (hd : m.Discreet G K) (he : e.Outside K)
    (found : Option CodeRef → Dealing) (hfinds : ∀ answer, (found answer).Finds m.host e answer) :
    Recounts K j m (lookDeals n e found m) (nativeFunc n e) (Stays G K) := by
  have hmoves : Moves [] m [] ((nativeFunc n e).after m) :=
    nativeFunc_carries (G := G ++ K) hn.lawful e hd.orderly
  have ho : ((nativeFunc n e).after m).Orderly (G ++ K) := (hmoves.orderly hd.orderly).1
  unfold lookDeals
  cases ht : e.target with
  | direct code =>
    have hafter : (nativeFunc n e).after m = m := by simp [nativeFunc, ht]
    unfold Recounts
    rw [hafter]
    exact ⟨hd, [], .refl K m, rfl⟩
  | provided provider data =>
    have hprovided : e.isProvided = true := by simp [Entry.isProvided, ht]
    cases hp : m.host.provided.get? e.id with
    | some answer =>
      have hknown : (nativeFunc n e).result m = answer ∧ (nativeFunc n e).after m = m := by
        simp only [nativeFunc, ht, Work.result_bind, Work.after_bind, Work.result_host,
          Work.after_host, hp, Work.result_pure, Work.after_pure, and_self]
      unfold Recounts
      rw [hknown.2, hknown.1]
      exact ⟨hd, [found answer], .known he hprovided hp (hfinds answer),
        Dealing.own_cons_of_isOwn (hfinds answer).isOwn⟩
    | none =>
      by_cases hname : '\x00' ∈ e.nativeName.toList
      · obtain ⟨hresult, hafter⟩ := nativeFunc_of_unnamed (n := n) ht hp hname
        unfold Recounts
        rw [hafter] at ho ⊢
        rw [hresult, if_neg fun h => h.2 hname]
        refine ⟨hd.of_names ho rfl (fun _ hx => .inl hx) (Nat.le_refl _), [found none], ?_,
          Dealing.own_cons_of_isOwn (hfinds none).isOwn⟩
        exact .unnamed he hprovided hp hname (hfinds none)
      · obtain ⟨ds, hds, hown, hd₁⟩ :=
          askProvider_records hn (hd.hold (.answer e.id)) provider data hname
        rw [if_pos ⟨rfl, hname⟩]
        refine ⟨?_, ?_⟩
        · rw [(nativeFunc_of_provided ht hp).2] at ho ⊢
          exact (hd₁.withLocks m.host.locks).of_names ho rfl (fun _ hx => .inl hx) (Nat.le_refl _)
        · obtain rfl := hn.depth
          refine ⟨_, .ask he ht hp hname hds hown (hfinds _), ?_⟩
          rw [Dealing.own_append, Dealing.own_cons_of_isOwn rfl, hown,
            Dealing.own_cons_of_isOwn (hfinds _).isOwn]
          rfl

theorem lower_recounts (hn : n.Recorded j) (hd : m.Discreet G K) (he : e.Outside K) :
    Recounts K j m (lowerDeals n e m) (lower n e) (Stays G K) := by
  unfold Recounts lowerDeals
  rw [after_lower, asked]
  split
  · rename_i hl
    exact nativeFunc_recounts hn hd he (.lowered e) fun _ => .inr ⟨rfl, hl⟩
  · exact ⟨hd, [], .refl K m, rfl⟩

theorem runNative_records (hn : n.Recorded j) (hd : m.Discreet G K) (func : CodeRef)
    (args : List NativeArg) : Records K j m (runNative n func args) (Stays G K) := by
  have hd₁ := hd.told (m.trace ++ [.called func args])
  refine .trace rfl (.host ?_)
  split
  · exact hn.runCode hd₁ _
  · exact .pure hd₁

theorem call_records (hn : n.Recorded j) (hd : m.Discreet G K) (p : CallPlan) (args : List Value) :
    Records K j m (call n p args) (Stays G K) := by
  unfold call
  refine .host ?_
  split
  · exact .pure hd
  · split
    · exact .pure hd
    · refine .host ?_
      generalize p.marshal m.host.heap args = handed
      obtain ⟨error, s⟩ := handed
      obtain ⟨hd₁, hp₁⟩ := hd.withHeap s.heap
      refine .modifyHost hp₁ ?_
      dsimp only
      split
      · obtain ⟨hd₂, hp₂⟩ := hd₁.withHeap (s.heap.unpinAll s.guards)
        exact .pure_bind (.modifyHost hp₂ (.pure hd₂))
      · refine .bind (runNative_records hn hd₁ _ _) fun hd₂ => .host ?_
        exact .pure_bind (.modifyHost (hd₂.withHeap _).2 (.pure (hd₂.withHeap _).1))

theorem interpret_recounts (hn : n.Recorded j) (hd : m.Discreet G K) (he : e.Outside K)
    (args : List Value) : Recounts K j m (lowerDeals n e m) (interpret n e args) (Stays G K) := by
  refine .bind (lower_recounts hn hd he) fun hd => ?_
  split
  · exact .pure hd
  · exact call_records hn hd _ args

theorem compileEntry_recounts (hn : n.Recorded j) (hd : m.Discreet G K) (he : e.Outside K) :
    Recounts K j m (lowerDeals n e m) (compileEntry n e) (Stays G K) := by
  refine .bind (lower_recounts hn hd he) fun hd => ?_
  split
  · exact .pure hd
  · exact .bind (.fresh hd) fun hd => .pure hd

theorem keep_discreet (hd : m.Discreet G K) {rs : Replacements} {method : Method}
    {plan : CallPlan} (hsuits : m.host.Suits rs method plan) :
    (m.withHost (m.host.keep rs method plan)).Discreet G K := by
  have hkept : Moves [] _ [] _ := keep_moves hd.orderly hsuits
  obtain ⟨runtime, bare, hsame⟩ := m.host.modifyReplacements_eq fun s =>
    if s.id = rs.id then
      { s with compiled := s.compiled.set method ⟨plan, .cached rs.id method⟩ } else s
  refine hd.of_names (hkept.orderly hd.orderly).1 ?_ (fun x hx => .inl ?_) (Nat.le_refl _)
  · rw [Machine.withHost, Host.keep, hsame]
  · rw [Machine.withHost, Host.keep, hsame] at hx
    exact hx

theorem compile_recounts (hn : n.Recorded j) (hd : m.Discreet G K) {rs : Replacements}
    (hrs : m.host.replacements? = some rs) (method : Method) :
    Recounts K j m (compileDeals n rs method m) (compile n rs method) (Stays G K) := by
  have hid : rs.id < m.host.serial := hd.orderly.host.id_lt (Host.mem_publications hrs)
  unfold compile compileDeals
  cases hc : rs.compiled.get? method with
  | some c =>
    have hmem : method ∈ rs.compiled.keys :=
      List.mem_map.2 ⟨_, Keyed.mem_of_get? hc, rfl⟩
    -- Nothing is compiled of a bare registry.
    unfold Host.replacements? at hrs
    cases hr : m.host.runtime with
    | none =>
      rw [hr] at hrs
      rw [(hd.orderly.host.exposed rs hrs).compiled] at hmem
      cases hmem
    | some r =>
      rw [hr] at hrs
      cases hrs
      exact ⟨hd.await _, [.compiled r.replacements.id method], .cached hr hid hmem, rfl⟩
  | none =>
    cases he : rs.published.find? method with
    | none => exact .await (.pure (hd.await _))
    | some e =>
      have hd₀ := hd.hold (.calls rs.id)
      obtain ⟨hd₁, ds, hds, hos⟩ := lower_recounts hn hd₀ (hd.outside_of_published hrs he)
      simp only [Recounts, Work.after_bind, Work.result_bind, Work.after_await, Work.result_holding,
        Work.after_holding, Machine.hold_await, Machine.host_await, lowerKept]
      cases hp : (lower n e).result (m.hold (.calls rs.id)) with
      | error err =>
        refine ⟨hd₁.withLocks _, ds, .hold hds, ?_⟩
        rw [hos]
        exact (List.append_nil _).symm
      | ok plan =>
        have hsuits := suits_of_lower (m := m.hold (.calls rs.id)) hn.lawful hrs he hp hd₀.orderly
        refine ⟨(keep_discreet hd₁ hsuits).withLocks _, _, .keep hid hds, ?_⟩
        rw [Dealing.own_append, hos]
        rfl

theorem invoke_recounts (hn : n.Recorded j) (hd : m.Discreet G K) {rs : Replacements}
    (hrs : m.host.replacements? = some rs) (method : Method) (mode : CallMode)
    (args : List Value) :
    Recounts K j m (invokeDeals n rs method m mode) (invoke n rs method mode args) (Stays G K) := by
  unfold invoke invokeDeals
  cases mode with
  | interpreted =>
    cases he : rs.published.find? method with
    | none => exact .pure hd
    | some e => exact interpret_recounts hn hd (hd.outside_of_published hrs he) args
  | compiled =>
    refine .bind (compile_recounts hn hd hrs method) fun hd => ?_
    split
    · exact .pure hd
    · exact call_records hn hd _ args

end Dispatch

namespace DispatchOp

theorem withReplacements_recounts (hd : m.Discreet G K) {f : Replacements → Work Reply}
    {os : Replacements → List Dealing}
    (hf : ∀ rs, m.host.replacements? = some rs → Recounts K j m (os rs) (f rs) (Stays G K)) :
    Recounts K j m (m.host.replacements?.elim [] os) (withReplacements f) (Stays G K) := by
  refine .host ?_
  cases hrs : m.host.replacements? with
  | some rs => exact hf rs hrs
  | none => exact .pure hd

theorem withReplacements_records (hd : m.Discreet G K) {f : Replacements → Work Reply}
    (hf : ∀ rs, m.host.replacements? = some rs → Records K j m (f rs) (Stays G K)) :
    Records K j m (withReplacements f) (Stays G K) := by
  have h := withReplacements_recounts hd hf
  cases hrs : m.host.replacements? <;> simpa [hrs] using h

theorem withEntry_recounts (hd : m.Discreet G K) (name : Label) {f : Entry → Work Reply}
    {os : Entry → List Dealing}
    (hf : ∀ e, e.Outside K → Recounts K j m (os e) (f e) (Stays G K)) :
    Recounts K j m ((m.host.entries.get? name).elim [] os) (withEntry name f) (Stays G K) := by
  refine .host ?_
  cases he : m.host.entries.get? name with
  | some e => exact hf e (hd.outside_of_name he)
  | none => exact .pure hd

theorem calling_recounts (hd : m.Discreet G K) (args : List Argument) (name : Option Label)
    {f : List Value → Work (Except DispatchError (Option Value))} {os : List Dealing}
    (hf : ∀ vs, Recounts K j m os (f vs) (Stays G K)) :
    Recounts K j m (match m.host.arguments args with | .ok _ => os | .error _ => [])
      (calling args name f) (Stays G K) := by
  refine .host ?_
  cases m.host.arguments args with
  | error err => exact .pure hd
  | ok vs =>
    refine .bind (hf vs) fun hd => ?_
    split
    · exact .pure hd
    · refine .bind (P := Stays G K) ?_ fun hd => .pure hd
      split
      · refine .of_carries hd (.modifyHost (.quietly ⟨rfl, Nat.le_refl _, Nat.le_refl _⟩) .pure)
          rfl rfl
      · exact .pure hd

theorem keepCall_records (hd : m.Discreet G K) (name : Option Label)
    (c : Except DispatchError CompiledCall) : Records K j m (keepCall name c) (Stays G K) := by
  refine .of_carries hd (keepCall_carries name c) ?_ ?_
  all_goals cases c <;> cases name <;> rfl

theorem owner_of_entry {spec : EntrySpec} {unit : String} {serial : Nat} {e : Entry}
    (he : spec.entry unit serial = .ok e) : e.owner = none := by
  unfold EntrySpec.entry at he
  split at he
  · cases he
  · split at he
    · cases he
    · cases he
      rfl

/-- An operation on entries does with them what it is for. -/
theorem perform_recounts (hn : n.Recorded j) (hd : m.Discreet G K) (op : DispatchOp) :
    Recounts K j m (op.deals n m) (op.perform n) (Stays G K) := by
  cases op with
  | entries | publishedUnits | find | isNative =>
    exact withReplacements_records hd fun _ _ => .pure hd
  | compiledCount =>
    exact withReplacements_records hd fun _ _ =>
      .bind (P := Stays G K) (.await (.pure (hd.await _))) fun hd => .pure hd
  | resolve method isStatic name =>
    refine withReplacements_records hd fun rs hrs => ?_
    cases he : Dispatch.resolve rs method isStatic with
    | none => exact .pure hd
    | some e =>
      have hfound := (Option.filter_eq_some_iff.1 he).1
      refine .host (.modifyHost ?_ (.pure ?_))
      · cases name <;> exact .of_eq { Around.refl m with } rfl rfl rfl rfl
      · cases name with
        | none => exact hd
        | some l => exact hd.name fun _ hx => hd.of_published hrs (Registry.mem_of_find? hfound) hx
  | compile method name =>
    exact withReplacements_recounts hd fun rs hrs =>
      .bind (Dispatch.compile_recounts hn hd hrs method) fun hd => keepCall_records hd name _
  | invoke method mode args name =>
    have h := withReplacements_recounts hd fun rs hrs =>
      calling_recounts hd args name fun vs =>
        Dispatch.invoke_recounts hn hd hrs method mode vs
    unfold deals perform
    cases hrs : m.host.replacements? <;> cases hargs : m.host.arguments args <;>
      simpa only [hrs, hargs, Option.elim_none, Option.elim_some] using h
  | entry spec name =>
    refine .bind (.fresh hd) fun hd => ?_
    split
    · exact .pure hd
    · rename_i e he
      refine .modifyHost (.of_eq { Around.refl _ with } rfl rfl rfl rfl)
        (.pure (hd.name fun x hx => ?_))
      rw [owner_of_entry he] at hx
      cases hx
  | entryInfo name =>
    refine .host ?_
    split
    · exact .host (.pure hd)
    · exact .pure hd
  | nativeFunc name =>
    exact withEntry_recounts hd name fun e he => .bind
      (Dispatch.nativeFunc_recounts hn hd he (.told e) fun _ => .inl rfl) fun hd => .pure hd
  | lower name =>
    refine withEntry_recounts hd name fun e he =>
      .bind (Dispatch.lower_recounts hn hd he) fun hd => ?_
    split <;> exact .pure hd
  | compileEntry name callName =>
    exact withEntry_recounts hd name fun e he =>
      .bind (Dispatch.compileEntry_recounts hn hd he) fun hd => keepCall_records hd callName _
  | invokeEntry name args result =>
    have h := withEntry_recounts hd name fun e he =>
      calling_recounts hd args result fun vs =>
        Dispatch.interpret_recounts hn hd he vs
    unfold deals perform
    cases hentry : m.host.entries.get? name <;> cases hargs : m.host.arguments args <;>
      simpa only [hentry, hargs, Option.elim_none, Option.elim_some] using h
  | call name args result =>
    refine .host ?_
    split
    · rename_i c _
      have h := calling_recounts hd args result fun vs =>
        Dispatch.call_records hn hd c.plan vs
      cases hargs : m.host.arguments args <;> simpa only [deals, hargs] using h
    · exact .pure hd

end DispatchOp

/-! ### The bare registry and the heap -/

namespace RegistryOp

theorem lore_declare (text : String) : ((declare text).after m).host.lore = m.host.lore ∧
    ((declare text).after m).trace = m.trace := by
  unfold declare
  split
  · exact ⟨rfl, rfl⟩
  · simp only [Work.after_bind, Work.result_get, Work.after_get, Work.result_host, Work.after_host]
    split
    · exact ⟨rfl, rfl⟩
    · simp only [Work.after_bind]
      split <;> exact ⟨rfl, rfl⟩

theorem lore_batch (unit : String) (specs : List EntrySpec) :
    ((batch unit specs).after m).host.lore = m.host.lore ∧
      ((batch unit specs).after m).trace = m.trace := by
  induction specs generalizing m with
  | nil => exact ⟨rfl, rfl⟩
  | cons s rest ih =>
    unfold batch
    rw [Work.after_bind]
    split
    · exact ⟨rfl, rfl⟩
    · have hrest := ih (m := Work.fresh.after m)
      rw [Work.after_bind]
      split <;> exact hrest

theorem lore_registerBatch (choice : UnitChoice) (specs : List EntrySpec) :
    ((registerBatch choice specs).after m).host.lore = m.host.lore ∧
      ((registerBatch choice specs).after m).trace = m.trace := by
  unfold registerBatch
  rw [Work.after_bind, Work.result_host, Work.after_host]
  split
  · exact ⟨rfl, rfl⟩
  · rename_i handle name _
    have hbatch := lore_batch (m := m) name specs
    rw [Work.after_bind]
    split
    · exact hbatch
    · rw [Work.after_bind, Work.result_host, Work.after_host]
      split <;> exact hbatch

theorem perform_records (hd : m.Discreet G K) (op : RegistryOp) :
    Records K j m op.perform (Stays G K) := by
  have hlore : (op.perform.after m).host.lore = m.host.lore ∧
      (op.perform.after m).trace = m.trace := by
    cases op with
    | register option => exact lore_declare option
    | registerEntries choice specs => exact lore_registerBatch choice specs
    | units | find | snapshot => exact ⟨rfl, rfl⟩
  exact .of_carries hd op.perform_carries hlore.1 hlore.2

end RegistryOp

namespace Host

variable {h : Host}

theorem lore_withObject {obj : Label} {f : ObjRef → Except DispatchError (Outcome × Host)}
    (hf : ∀ r outcome h', f r = .ok (outcome, h') → h'.lore = h.lore) :
    (h.withObject obj f).2.lore = h.lore := by
  unfold withObject
  split
  · rfl
  · split
    · rename_i h'
      exact hf _ _ _ h'
    · rfl

theorem lore_askObject {obj : Label} {f : ObjRef → Except DispatchError Outcome} :
    (h.askObject obj f).2.lore = h.lore :=
  lore_withObject fun _ _ _ hr => by
    obtain ⟨_, _, ha⟩ := exists_of_map_eq_ok hr
    cases ha
    rfl

theorem lore_changeObject {obj : Label} {f : ObjRef → Except DispatchError Heap} :
    (h.changeObject obj f).2.lore = h.lore :=
  lore_withObject fun _ _ _ hr => by
    obtain ⟨_, _, ha⟩ := exists_of_map_eq_ok hr
    cases ha
    rfl

theorem lore_keepGuard (name : Label) (g : Guard) : (h.keepGuard name g).lore = h.lore := by
  unfold keepGuard
  cases h.guards.get? name <;> rfl

end Host

theorem HeapOp.lore_perform (h : Host) (op : HeapOp) : (op.perform h).2.lore = h.lore := by
  cases op with
  | newObject | newArray | newArrayFrom | «foreign» | resolveAddress | relocate | size => rfl
  | kind | arrayLength | read | readField | resolveObject | isPinned | display =>
    exact Host.lore_askObject
  | free | write | writeField => exact Host.lore_changeObject
  | mark obj =>
    refine Host.lore_withObject fun r outcome h' hr => ?_
    obtain ⟨a, _, ha⟩ := exists_of_map_eq_ok hr
    cases ha
    rfl
  | pin obj name =>
    refine Host.lore_withObject fun r outcome h' hr => ?_
    obtain ⟨⟨g, heap⟩, _, ha⟩ := exists_of_map_eq_ok hr
    cases ha
    exact Host.lore_keepGuard name g
  | unpin name =>
    simp only [HeapOp.perform]
    split <;> rfl

end AccelHost
