import AccelHost.Proofs.Paired

/-!
Calls of replaced methods on two machines that do the same but for modes. Which plan a method is
called by does not depend on whether it was compiled before, since a plan that is kept is the one
that lowering the entry again would give.
-/
namespace AccelHost

open Holding

theorem Keyed.get?_set_of_eq {κ ν : Type} [DecidableEq κ] {k k' : κ} {t : Keyed κ ν} {v w : ν}
    (hv : ∀ u, t.get? k = some u → u = v) (h : t.get? k' = some w) :
    (t.set k v).get? k' = some w := by
  by_cases hk : k = k'
  · subst hk
    rw [Keyed.get?_set_self, hv w h]
  · rw [Keyed.get?_set_of_ne hk, h]

namespace Host

variable {q : Prop} {h h' : Host}

namespace Twin

theorem provide (t : h.Twin q h') (id : EntryId) (answer : Option CodeRef)
    (ha : ∀ a, h.provided.get? id = some a → a = answer) :
    ({ h with provided := h.provided.set id answer } : Host).Twin q
      { h' with provided := h'.provided.set id answer } := by
  cases t with
  | mk hs hn hp hm hc hq =>
    refine .mk hs hn hp hm (fun r hr method c hmem => ?_) hq
    obtain ⟨e, func, he, hf, hcall⟩ := hc r hr method c hmem
    exact ⟨e, func, he, native?_mono (fun _ _ h => Keyed.get?_set_of_eq ha h) hf, hcall⟩

/-- Compiling in the first of two hosts leaves them as alike as they were. -/
theorem keep_left {rs : Replacements} {method : Method} {plan : CallPlan} (t : h.Twin q h')
    (hsuits : h.Suits rs method plan) : (h.keep rs method plan).Twin q h' := by
  cases hr : h.runtime with
  | none => rwa [keep_of_bare hsuits hr]
  | some r =>
    unfold keep modifyReplacements
    simp only [hr]
    split
    · cases t with
      | @mk source native provider modules compiled locks hs hn hp hm hc hq =>
        have hrecast : h.recast source native provider modules compiled locks =
            ({ h with runtime := some (r.recompiled
              (r.replacements.compiled.set method ⟨plan, .cached rs.id method⟩)) } : Host).recast
                source native provider modules compiled locks := by
          simp [recast, hr, Runtime.recompiled]
        rw [hrecast]
        refine .mk hs hn hp hm (fun r' hr' => ?_) hq
        cases hr'
        exact hc r hr
    · rwa [← hr]

theorem keep_right {rs : Replacements} {method : Method} {plan : CallPlan} (t : h.Twin q h')
    (hsuits : h.Suits rs method plan) : h.Twin q (h'.keep rs method plan) := by
  cases t with
  | @mk source native provider modules compiled locks hs hn hp hm hc hq =>
    cases hr : h.runtime with
    | none =>
      have hkeep : (h.recast source native provider modules compiled locks).keep rs method plan =
          (h.keep rs method plan).recast source native provider modules compiled locks := by
        simp [keep, modifyReplacements, recast, hr]
      rw [hkeep, keep_of_bare hsuits hr]
      exact .mk hs hn hp hm hc hq
    | some r =>
      by_cases hid : r.replacements.id = rs.id
      · have hkeep : (h.recast source native provider modules compiled locks).keep rs method plan =
            h.recast source native provider modules
              (compiled.set method ⟨plan, .cached rs.id method⟩) locks := by
          simp [keep, modifyReplacements, recast, hr, Runtime.recompiled, hid]
        rw [hkeep]
        refine .mk hs hn hp hm (fun r' hr' method' c hmem => ?_) hq
        rw [hr] at hr'
        cases hr'
        rcases Keyed.mem_set hmem with ⟨rfl, rfl⟩ | hmem
        · have hin : h.replacements? = some r.replacements := by
            simp [Host.replacements?, hr]
          obtain ⟨_, e, func, he, hf, rfl⟩ := hsuits _ hin hid
          exact ⟨e, func, he, hf, by rw [hid]⟩
        · exact hc r hr method' c hmem
      · have hkeep : (h.recast source native provider modules compiled locks).keep rs method plan =
            h.recast source native provider modules compiled locks := by
          simp [keep, modifyReplacements, recast, hr, Runtime.recompiled, hid]
        rw [hkeep]
        exact .mk hs hn hp hm hc hq

end Twin

end Host

namespace Dispatch

variable {n : Nested} {q : Prop} {G : List UnitHandle} {m m' : Machine}

theorem askProvider_paired (hn : n.Fair q) (e : Entry) (provider : CodeRef)
    (data : Option CodeRef) :
    Agree q G m m' (askProvider n e provider data) (askProvider n e provider data) := by
  unfold askProvider
  split
  · exact .pure rfl
  · refine .trace fun m m' => .host fun _ t => ?_
    have hp := t.host.provider provider
    generalize m.host.provider provider = f at hp ⊢
    generalize m'.host.provider provider = g at hp ⊢
    cases hp with
    | none => exact .pure rfl
    | some h => exact .runCode hn (h _ _)

theorem nativeFunc_paired (hn : n.Fair q) (e : Entry) :
    Agree q G m m' (nativeFunc n e) (nativeFunc n e) := by
  unfold nativeFunc
  split
  · exact .pure rfl
  · refine .host fun _ t => ?_
    rw [t.host.same (·.provided) fun _ _ _ _ _ _ => rfl]
    split
    · exact .pure rfl
    · rename_i provider data _ _ _ _
      have hasked : Agree q G m m' (Work.holding (.answer e.id) (askProvider n e provider data))
          (Work.holding (.answer e.id) (askProvider n e provider data)) :=
        .holding_left (fun _ hr => askProvider_blind hr e _ _) fun _ _ =>
          .holding_right (fun _ hr => askProvider_blind hr e _ _) fun _ =>
            askProvider_paired hn e _ _
      refine .bind hasked fun answer _ m m' ha => ?_
      subst ha
      refine .host fun ho t => ?_
      rw [t.host.same (·.provided) fun _ _ _ _ _ _ => rfl]
      have hfirst : ∀ a, m.host.provided.get? e.id = some a →
          a = (m.host.provided.get? e.id).getD answer := fun a ha => by simp [ha]
      refine .modifyHost_at (J := G) (fun ho => ?_) (fun _ t => t.provide _ _ hfirst)
        fun _ _ => .pure rfl
      refine ho.of_same rfl { Host.Same.refl _ with provided := ?_ } rfl
      exact fun _ _ h => Keyed.get?_set_of_eq hfirst h

theorem lower_paired (hn : n.Fair q) (e : Entry) : Agree q G m m' (lower n e) (lower n e) := by
  unfold lower
  refine .host fun _ t => ?_
  rw [t.host.isLoaded]
  split
  · exact .pure rfl
  · refine .bind (nativeFunc_paired hn e) fun func _ _ _ hf => ?_
    subst hf
    cases func <;> exact .pure rfl

theorem runNative_paired (hn : n.Fair q) (func : CodeRef) (args : List NativeArg) :
    Agree q G m m' (runNative n func args) (runNative n func args) := by
  unfold runNative
  refine .trace fun m m' => .host fun _ t => ?_
  have hf := t.host.native func
  generalize m.host.native func = f at hf ⊢
  generalize m'.host.native func = g at hf ⊢
  cases hf with
  | none => exact .pure rfl
  | some h => exact .runCode hn (h _)

theorem call_paired (hn : n.Fair q) (p : CallPlan) (args : List Value) :
    Agree q G m m' (call n p args) (call n p args) := by
  unfold call
  refine .host fun _ t => ?_
  rw [t.host.isLoaded]
  split
  · exact .pure rfl
  · split
    · exact .pure rfl
    · refine .host fun _ t => ?_
      rw [t.host.same (·.heap) fun _ _ _ _ _ _ => rfl]
      generalize p.marshal m.host.heap args = handed
      obtain ⟨error, s⟩ := handed
      refine .modifyHost (J := G) (fun ho => ho.of_same rfl { Host.Same.refl _ with } rfl)
        (fun t => by cases t with | mk hs hn hp hm hc hq => exact .mk hs hn hp hm hc hq)
        fun m m' => ?_
      have hback (result : Except DispatchError (Option Value)) (m m' : Machine) :
          let back : Work (Except DispatchError (Option Value)) := do
            Work.modifyHost fun h => { h with heap := h.heap.unpinAll s.guards }
            pure result
          Agree q G m m' back back := by
        refine .modifyHost (J := G) (fun ho => ho.of_same rfl { Host.Same.refl _ with } rfl)
          (fun t => ?_) fun _ _ => .pure rfl
        cases t with | mk hs hn hp hm hc hq => exact .mk hs hn hp hm hc hq
      cases error with
      | some e => exact hback _ _ _
      | none =>
        refine .bind (runNative_paired hn _ _) fun register _ m m' hr => .host fun _ t => ?_
        subst hr
        rw [t.host.same (·.heap) fun _ _ _ _ _ _ => rfl]
        exact hback _ _ _

theorem interpret_paired (hn : n.Fair q) (e : Entry) (args : List Value) :
    Agree q G m m' (interpret n e args) (interpret n e args) := by
  unfold interpret
  refine .bind (lower_paired hn e) fun p _ _ _ hp => ?_
  subst hp
  cases p with
  | error e => exact .pure rfl
  | ok p => exact call_paired hn p args

theorem compileEntry_paired (hn : n.Fair q) (e : Entry) :
    Agree q G m m' (compileEntry n e) (compileEntry n e) := by
  unfold compileEntry
  refine .bind (lower_paired hn e) fun p _ _ _ hp => ?_
  subst hp
  cases p with
  | error e => exact .pure rfl
  | ok p => exact .bind .fresh fun _ _ _ _ hid => .pure (by rw [hid])

/-! ### Plans -/

/-- An entry that is loaded and whose function is known is lowered without any effect. -/
theorem lower_of_known {e : Entry} {func : CodeRef} (hl : m.host.isLoaded e = true)
    (hf : m.host.native? e = some func) :
    (lower n e).result m = .ok (.ofEntry e func) ∧ (lower n e).after m = m := by
  have hfunc : (nativeFunc n e).result m = some func ∧ (nativeFunc n e).after m = m := by
    unfold Host.native? at hf
    unfold nativeFunc
    cases ht : e.target with
    | direct code => simpa [ht] using hf
    | provided provider data =>
      simp only [ht, Option.join_eq_some_iff] at hf
      simp [hf]
  unfold lower
  simp [hl, hfunc]

def cleared (rs : Replacements) : Replacements := { rs with compiled := [] }

def settle (rs : Replacements) (method : Method) :
    CallMode → Except DispatchError CallPlan → Work (Except DispatchError CallPlan)
  | .compiled, .ok p => do
    Work.modifyHost fun h => h.keep rs method p
    return .ok p
  | _, r => return r

/-- The lock that a mode takes before anything is lowered. -/
def locked {α : Type} (rs : Replacements) : CallMode → Work α → Work α
  | .interpreted, w => w
  | .compiled, w => Work.holding (.calls rs.id) w

/-- Lowers the entry of a method, and settles the plan. -/
def lowerSettled (n : Nested) (rs : Replacements) (method : Method) (mode : CallMode) :
    Work (Except DispatchError CallPlan) :=
  match rs.published.find? method with
  | none => return .error (.notReplaced method)
  | some e => do settle rs method mode (← lower n e)

theorem result_lowerKept (rs : Replacements) (method : Method) (e : Entry) :
    (lowerKept n rs method e).result m =
      ((lower n e).result m).map fun p => ⟨p, .cached rs.id method⟩ := by
  unfold lowerKept
  rw [Work.result_bind]
  cases (lower n e).result m <;> rfl

theorem result_settle (rs : Replacements) (method : Method) (mode : CallMode)
    (r : Except DispatchError CallPlan) : (settle rs method mode r).result m = r := by
  cases mode <;> cases r <;> rfl

theorem after_lowerKept (rs : Replacements) (method : Method) (e : Entry) :
    (lowerKept n rs method e).after m =
      (settle rs method .compiled ((lower n e).result m)).after ((lower n e).after m) := by
  unfold lowerKept
  rw [Work.after_bind]
  cases (lower n e).result m <;> rfl

theorem compile_cleared (rs : Replacements) (method : Method) :
    (compile n (cleared rs) method).result m =
        ((locked rs .compiled (lowerSettled n rs method .compiled)).result m).map (fun p =>
          ⟨p, .cached rs.id method⟩) ∧
      (compile n (cleared rs) method).after m =
        (locked rs .compiled (lowerSettled n rs method .compiled)).after m := by
  unfold compile lowerSettled
  simp only [cleared, Keyed.get?, locked]
  cases rs.published.find? method with
  | none => exact ⟨rfl, rfl⟩
  | some e =>
    simp only [Work.result_bind, Work.after_bind, Work.after_await, Work.result_holding,
      Work.after_holding, Machine.hold_await, Machine.host_await, result_lowerKept,
      after_lowerKept, result_settle, true_and]
    rfl

/-- Compiling does not depend on what was compiled before. -/
theorem compile_uncached {rs : Replacements} (method : Method)
    (hrs : m.host.replacements? = some rs) (hc : m.host.Caches rs) :
    (compile n rs method).result m = (compile n (cleared rs) method).result m ∧
      (compile n rs method).after m = (compile n (cleared rs) method).after m := by
  unfold compile
  cases hget : rs.compiled.get? method with
  | none => exact ⟨rfl, rfl⟩
  | some c =>
    obtain ⟨e, func, he, hl, hf, rfl⟩ := hc method c hget
    -- The call is kept already, and to keep it again changes nothing but that the lock is asked
    -- for.
    obtain ⟨hr, ha⟩ := lower_of_known (n := n) (m := m.hold (.calls rs.id)) (e := e) hl hf
    have hkeep : (m.hold (.calls rs.id)).host.keep rs method (.ofEntry e func) =
        (m.hold (.calls rs.id)).host := by
      unfold Host.keep
      rw [Host.modifyReplacements_congr (g := id), Host.modifyReplacements_id]
      intro s hs
      rw [show (m.hold (.calls rs.id)).host.replacements? = some rs from hrs] at hs
      cases hs
      simp [Keyed.set_eq_self hget]
    simp only [cleared, Keyed.get?, he, Work.result_bind, Work.after_bind, Work.after_await,
      Work.result_holding, Work.after_holding, Machine.hold_await, Machine.host_await,
      result_lowerKept, after_lowerKept, hr, ha]
    refine ⟨rfl, ?_⟩
    change m.await _ = ((m.hold _).withHost ((m.hold _).host.keep rs method _)).withLocks _
    rw [hkeep]
    rfl

theorem plan_uncached {rs : Replacements} (method : Method) (mode : CallMode)
    (hrs : m.host.replacements? = some rs) (hc : m.host.Caches rs) :
    (plan n rs method mode).result m = (plan n (cleared rs) method mode).result m ∧
      (plan n rs method mode).after m = (plan n (cleared rs) method mode).after m := by
  cases mode with
  | interpreted => exact ⟨rfl, rfl⟩
  | compiled =>
    obtain ⟨hr, ha⟩ := compile_uncached (n := n) method hrs hc
    simp only [plan, Work.result_bind, Work.after_bind, hr, ha, and_self]

/-- Where nothing is compiled, both modes lower the entry. -/
theorem plan_cleared (rs : Replacements) (method : Method) (mode : CallMode) :
    (plan n (cleared rs) method mode).result m =
        (locked rs mode (lowerSettled n rs method mode)).result m ∧
      (plan n (cleared rs) method mode).after m =
        (locked rs mode (lowerSettled n rs method mode)).after m := by
  cases mode with
  | interpreted =>
    unfold plan locked lowerSettled
    simp only [cleared]
    cases rs.published.find? method <;> exact ⟨rfl, rfl⟩
  | compiled =>
    obtain ⟨hr, ha⟩ := compile_cleared (n := n) (m := m) rs method
    simp only [plan, Work.result_bind, Work.after_bind, Work.result_pure, Work.after_pure, hr, ha,
      and_true]
    cases (locked rs .compiled (lowerSettled n rs method .compiled)).result m <;> rfl

theorem settle_paired {rs : Replacements} {method : Method} (mode mode' : CallMode)
    {r : Except DispatchError CallPlan}
    (hsuits : ∀ p, r = .ok p → m.host.Suits rs method p) :
    Agree q G m m' (settle rs method mode r) (settle rs method mode' r) := by
  cases r with
  | error e => cases mode <;> cases mode' <;> exact .pure rfl
  | ok p =>
    have hs := hsuits p rfl
    intro ho t
    have ho' : (m.withHost (m.host.keep rs method p)).Orderly G :=
      ((keep_moves (X := []) ho hs).orderly ho).1
    have hright := t.host.keep_right hs
    cases mode with
    | interpreted =>
      cases mode' with
      | interpreted => exact ⟨ho, rfl, t⟩
      | compiled => exact ⟨ho, rfl, t.withHost hright⟩
    | compiled =>
      cases mode' with
      | interpreted => exact ⟨ho', rfl, t.withHost (t.host.keep_left hs)⟩
      | compiled => exact ⟨ho', rfl, t.withHost (hright.keep_left hs)⟩

/-- The plans that lowering the entry of a method gives suit the replacements. -/
def LowersSuited (n : Nested) (m : Machine) (rs : Replacements) (method : Method) : Prop :=
  ∀ e p, rs.published.find? method = some e → (lower n e).result m = .ok p →
    ((lower n e).after m).host.Suits rs method p

/-- Lowering suits the replacements, also under their lock. -/
def LowersSuitedHeld (n : Nested) (G : List UnitHandle) (m : Machine) (rs : Replacements)
    (method : Method) : Prop :=
  ∀ m₁, m₁ = m ∨ m₁ = m.hold (.calls rs.id) → m₁.Orderly G → LowersSuited n m₁ rs method

theorem lowerSettled_paired (hn : n.Fair q) {rs : Replacements} {method : Method}
    (hsuits : m.Orderly G → LowersSuited n m rs method) (mode mode' : CallMode) :
    Agree q G m m' (lowerSettled n rs method mode) (lowerSettled n rs method mode') := by
  unfold lowerSettled
  cases he : rs.published.find? method with
  | none => exact .pure rfl
  | some e =>
    intro ho t
    obtain ⟨ho₁, hr, t₁⟩ := lower_paired hn e ho t
    have hsettle := settle_paired mode mode' (fun p => hsuits ho e p he) ho₁ t₁
    simp only [Work.result_bind, Work.after_bind, ← hr]
    exact hsettle

/-- Where providers are reserved, lowering does not look at the lock of the compiled calls. -/
theorem lowerSettled_blind {locks : List Lock} (hr : m.host.Reserved) (rs : Replacements)
    (method : Method) (mode : CallMode) (hl : ∀ id, .answer id ∉ locks) :
    Work.Blind locks m (lowerSettled n rs method mode) := by
  unfold lowerSettled
  split
  · exact .pure
  · refine .bind (lower_blind hr _ (hl _)) ?_
    generalize (lower n _).result m = r
    cases mode with
    | interpreted => cases r <;> exact .pure
    | compiled =>
      cases r with
      | error e => exact .pure
      | ok p =>
        refine .modifyHost ?_ .pure
        unfold Host.keep Host.modifyReplacements
        cases ((lower n _).after m).host.runtime <;> rfl

theorem locked_paired (hn : n.Fair q) {rs : Replacements} {method : Method}
    (hsuits : LowersSuitedHeld n G m rs method) (mode mode' : CallMode) :
    Agree q G m m' (locked rs mode (lowerSettled n rs method mode))
      (locked rs mode' (lowerSettled n rs method mode')) := by
  have hright (m₁ : Machine) (h : m₁ = m ∨ m₁ = m.hold (.calls rs.id)) :
      Agree q G m₁ m' (lowerSettled n rs method mode)
        (locked rs mode' (lowerSettled n rs method mode')) := by
    cases mode' with
    | interpreted => exact lowerSettled_paired hn (hsuits m₁ h) _ _
    | compiled =>
      exact .holding_right (fun _ hr => lowerSettled_blind hr rs method _ (by simp))
        fun _ => lowerSettled_paired hn (hsuits m₁ h) _ _
  cases mode with
  | interpreted => exact hright m (.inl rfl)
  | compiled =>
    exact .holding_left (fun _ hr => lowerSettled_blind hr rs method _ (by simp)) hright

theorem plan_cleared_paired (hn : n.Fair q) {rs : Replacements} {method : Method}
    (hsuits : LowersSuitedHeld n G m rs method) (mode mode' : CallMode) :
    Agree q G m m' (plan n (cleared rs) method mode) (plan n (cleared rs) method mode') := by
  obtain ⟨hr, ha⟩ := plan_cleared (n := n) (m := m) rs method mode
  obtain ⟨hr', ha'⟩ := plan_cleared (n := n) (m := m') rs method mode'
  exact .congr (locked_paired hn hsuits mode mode') hr ha hr' ha'

theorem invoke_paired_of_plan (hn : n.Fair q) {rs rs' : Replacements} {method : Method}
    {mode mode' : CallMode}
    (h : Agree q G m m' (plan n rs method mode) (plan n rs' method mode')) (args : List Value) :
    Agree q G m m' (invoke n rs method mode args) (invoke n rs' method mode' args) := by
  rw [invoke_eq, invoke_eq]
  refine .bind h fun p _ _ _ hp => ?_
  subst hp
  cases p with
  | error e => exact .pure rfl
  | ok p => exact call_paired hn p args

/-- Replacements that are in use on two machines, with different calls compiled. -/
structure InUse (m m' : Machine) (rs rs' : Replacements) : Prop where
  left : m.host.replacements? = some rs
  right : m'.host.replacements? = some rs'
  cachesLeft : m.host.Caches rs
  cachesRight : m'.host.Caches rs'
  same : rs' = { rs with compiled := rs'.compiled }

namespace InUse

variable {rs rs' : Replacements}

theorem cleared_eq (h : InUse m m' rs rs') : cleared rs' = cleared rs := by
  rw [h.same]
  rfl

theorem lowersSuited (h : InUse m m' rs rs') (hn : n.Lawful) (method : Method) :
    LowersSuitedHeld n G m rs method := by
  rintro _ (rfl | rfl) ho e p he hp
  · exact suits_of_lower hn h.left he hp ho
  · exact suits_of_lower hn (m := m.hold _) h.left he hp ho

theorem plan_paired (h : InUse m m' rs rs') (hn : n.Fair q) (method : Method)
    (mode mode' : CallMode) :
    Agree q G m m' (plan n rs method mode) (plan n rs' method mode') := by
  obtain ⟨hr, ha⟩ := plan_uncached (n := n) method mode h.left h.cachesLeft
  obtain ⟨hr', ha'⟩ := plan_uncached (n := n) method mode' h.right h.cachesRight
  refine .congr ?_ hr ha hr' ha'
  rw [h.cleared_eq]
  exact plan_cleared_paired hn (h.lowersSuited hn.lawful method) mode mode'

theorem compile_paired (h : InUse m m' rs rs') (hn : n.Fair q) (method : Method) :
    Agree q G m m' (compile n rs method) (compile n rs' method) := by
  obtain ⟨hr, ha⟩ := compile_uncached (n := n) method h.left h.cachesLeft
  obtain ⟨hr', ha'⟩ := compile_uncached (n := n) method h.right h.cachesRight
  refine .congr ?_ hr ha hr' ha'
  rw [h.cleared_eq]
  obtain ⟨hr, ha⟩ := compile_cleared (n := n) (m := m) rs method
  obtain ⟨hr', ha'⟩ := compile_cleared (n := n) (m := m') rs method
  intro ho t
  obtain ⟨ho₁, heq, t₁⟩ := locked_paired hn (h.lowersSuited hn.lawful method) .compiled .compiled
    ho t
  rw [hr, ha, hr', ha', heq]
  exact ⟨ho₁, rfl, t₁⟩

/-- A replaced method comes to the same in both modes. -/
theorem invoke_paired (h : InUse m m' rs rs') (hn : n.Fair q) (method : Method)
    (mode mode' : CallMode) (args : List Value) :
    Agree q G m m' (invoke n rs method mode args) (invoke n rs' method mode' args) :=
  invoke_paired_of_plan hn (h.plan_paired hn method mode mode') args

end InUse

theorem compiledCount_paired (rs rs' : Replacements) :
    Paired q G m m' (compiledCount rs) (compiledCount rs') (fun _ _ => True) fun _ => G :=
  .await fun _ _ => .pure trivial

end Dispatch

end AccelHost
