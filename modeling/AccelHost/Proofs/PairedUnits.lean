import AccelHost.Proofs.PairedOps

/-!
Startup and shutdown, and the operations on units and runtimes, on two machines that do the same but
for modes. Hooks are alike, and so they leave the same registry.
-/
namespace AccelHost

open Holding

variable {n : Nested} {q : Prop} {G : List UnitHandle} {m m' : Machine}
  {x : UnitHandle} {r : Registry}

theorem rel_bind {α β γ δ : Type} {r : α → β → Prop} {s : γ → δ → Prop} {a : Option α}
    {b : Option β} {f : α → Option γ} {g : β → Option δ} (h : Option.Rel r a b)
    (hf : ∀ x y, r x y → Option.Rel s (f x) (g y)) : Option.Rel s (a.bind f) (b.bind g) := by
  cases h with
  | none => exact .none
  | some h => exact hf _ _ h

/-- Hooks that are alike for every unit, if they are there. -/
abbrev HooksAlike (q : Prop) (f g : Option (UnitHandle → Behaviour Status)) : Prop :=
  Option.Rel (fun f g => ∀ x, Behaviour.Alike q (f x) (g x)) f g

namespace UnitModule.Alike

variable {a b : UnitModule}

theorem location (h : UnitModule.Alike q a b) : b.location = a.location := by cases h; rfl

theorem postInit (h : UnitModule.Alike q a b) : HooksAlike q a.postInit b.postInit := by
  cases h with | mk _ hp _ _ => exact hp

theorem finalize (h : UnitModule.Alike q a b) : HooksAlike q a.finalize b.finalize := by
  cases h with | mk _ _ hf _ => exact hf

end UnitModule.Alike

namespace Host.Twin

variable {h h' : Host}

theorem modifySessions (t : h.Twin q h') (f : List Session → List Session) :
    ({ h with sessions := f h.sessions } : Host).Twin q { h' with sessions := f h'.sessions } := by
  cases t with | mk hs hn hp hm hc hq => exact .mk hs hn hp hm hc hq

theorem attach (t : h.Twin q h') {a b : UnitModule} (hab : UnitModule.Alike q a b) :
    ({ h with modules := h.modules.set x a, loaded := h.loaded.set x true } : Host).Twin q
      { h' with modules := h'.modules.set x b, loaded := h'.loaded.set x true } := by
  cases t with
  | mk hs hn hp hm hc hq => exact .mk hs hn hp (Keyed.set_rel hm x hab) hc hq

theorem release (t : h.Twin q h') :
    ({ h with modules := h.modules.erase x, loaded := h.loaded.set x false } : Host).Twin q
      { h' with modules := h'.modules.erase x, loaded := h'.loaded.set x false } := by
  cases t with
  | mk hs hn hp hm hc hq => exact .mk hs hn hp (Keyed.erase_rel hm x) hc hq

theorem withPending (t : h.Twin q h') (pending : Option Registry) :
    ({ h with pending } : Host).Twin q { h' with pending } := by
  cases t with | mk hs hn hp hm hc hq => exact .mk hs hn hp hm hc hq

end Host.Twin

/-- Units in hand stay so while their modules come and go. -/
theorem Moves.orderly_in_hand (hm : Moves (ofUnits G) m (ofUnits G) m') (ho : m.Orderly G) :
    m'.Orderly G := by
  have ho' := (hm.orderly (G := []) (by simpa using ho)).1
  simpa using ho'

namespace Paired

variable {α β γ δ : Type} {w : Work α} {w' : Work β} {f : α → Work γ} {f' : β → Work δ}
  {R : α → β → Prop} {S : γ → δ → Prop} {H : α → List UnitHandle} {K : γ → List UnitHandle}

/-- One piece of work after another, at the machines that the first one leaves. -/
theorem bind_at (h : Paired q G m m' w w' R H)
    (hf : m.Orderly G → R (w.result m) (w'.result m') →
      Paired q (H (w.result m)) (w.after m) (w'.after m') (f (w.result m)) (f' (w'.result m'))
        S K) :
    Paired q G m m' (w >>= f) (w' >>= f') S K := fun ho ht => by
  obtain ⟨ho₁, hr, ht₁⟩ := h ho ht
  exact hf ho hr ho₁ ht₁

theorem discard {xs J : List UnitHandle} (h : Paired q J m m' w w' R fun _ => xs ++ G) :
    Paired q J m m' w w' R fun _ => G :=
  h.imp (fun _ _ hr => hr) fun _ _ ho => ho.forget

end Paired

namespace Startup

/-- The same result, with a registry of the same units as another one. -/
abbrev Alike {α : Type} (r : Registry) (f : α → Registry) (a b : α) : Prop :=
  a = b ∧ (f a).handles = r.handles

theorem callHook_paired (hn : n.Fair q) (hx : x ∈ G) (point : EntryPoint)
    {f g : UnitHandle → Behaviour Status} (hf : ∀ x, Behaviour.Alike q (f x) (g x)) (r : Registry) :
    Paired q G m m' (callHook n point f r x) (callHook n point g r x)
      (Alike r fun e => e.session.registry) fun _ => G := by
  have hagree : Agree q G m m' (callHook n point f r x) (callHook n point g r x) := by
    unfold callHook
    refine .trace fun m m' => .host fun _ t => ?_
    rw [t.host.same (·.settings) fun _ _ _ _ _ _ => rfl]
    refine .modifyHost (J := G) (fun ho => ho.of_same rfl { Host.Same.refl _ with } rfl)
      (fun t => t.modifySessions _) fun m m' => .bind (.runCode hn (hf x)) fun _ _ m m' hs => ?_
    subst hs
    refine .host fun _ t => ?_
    rw [t.host.same (·.sessions) fun _ _ _ _ _ _ => rfl]
    exact .modifyHost (J := G) (fun ho => ho.of_same rfl { Host.Same.refl _ with } rfl)
      (fun t => t.modifySessions _) fun m m' => .trace fun _ _ => .pure rfl
  intro ho t
  obtain ⟨ho₁, he, t₁⟩ := hagree ho t
  have ho' : m.Orderly (G ++ (units [] ++ [])) := by simpa using ho
  have hext := (callHook_does hn.lawful ho' hx point f r).2
  exact ⟨ho₁, ⟨he, hext.handles_eq⟩, t₁⟩

theorem advance_paired (r : Registry) (x : UnitHandle) (next : UnitState) :
    Paired q G m m' (advance r x next) (advance r x next) (Alike r id) fun _ => G :=
  .trace fun _ _ => .pure ⟨rfl, Registry.handles_modifyUnit fun _ => rfl⟩

theorem attach_paired (hx : x ∈ G) (r : Registry) {a b : UnitModule}
    (hab : UnitModule.Alike q a b) :
    Paired q G m m' (attach r x a) (attach r x b) (Alike r id) fun _ => G := by
  unfold attach
  refine .trace fun m m' => .modifyHost (J := G) (fun ho => ?_) (fun t => t.attach hab)
    fun m m' => ?_
  · exact Moves.orderly_in_hand (.attach (List.mem_map_of_mem hx)) ho
  · rw [hab.location]
    refine (advance_paired _ x .loaded).imp (fun _ _ h => ⟨h.1, h.2.trans ?_⟩) fun _ _ ho => ho
    exact Registry.handles_modifyUnit fun _ => rfl

theorem release_paired (hx : x ∈ G) : Agree q G m m' (release x) (release x) := by
  unfold release
  refine .host fun _ t => ?_
  rw [t.host.module_isSome]
  split
  · refine .trace fun m m' => fun ho t => ⟨?_, rfl, t.withHost t.host.release⟩
    exact Moves.orderly_in_hand (.release (List.mem_map_of_mem hx)) ho
  · exact .pure rfl

theorem releaseAll_paired {r : Registry} (hr : ∀ x ∈ r.handles, x ∈ G) :
    Agree q G m m' (releaseAll r) (releaseAll r) := by
  have hunits (us : List DeclaredUnit) (hus : ∀ u ∈ us, u.handle ∈ G) (m m' : Machine) :
      Agree q G m m' (us.forM fun u => release u.handle) (us.forM fun u => release u.handle) := by
    induction us generalizing m m' with
    | nil => exact .pure rfl
    | cons u us ih =>
      refine .bind (release_paired (hus u (by simp))) fun _ _ _ _ _ => ?_
      exact ih (fun v hv => hus v (List.mem_cons_of_mem u hv)) _ _
  exact hunits r.units (fun u hu => hr _ (List.mem_map_of_mem hu)) _ _

/-! ### The end of units -/

theorem finalizeUnit_paired (hn : n.Fair q) (hx : x ∈ G) (r : Registry) (report : ShutdownReport) :
    Paired q G m m' (finalizeUnit n r report x) (finalizeUnit n r report x) (Alike r Prod.fst)
      fun _ => G := by
  unfold finalizeUnit
  cases r.unit? x with
  | none => exact .pure ⟨rfl, rfl⟩
  | some u =>
    dsimp only
    split
    · exact .pure ⟨rfl, rfl⟩
    · refine .host fun _ t => ?_
      have hhook := rel_bind (t.host.modules x) fun _ _ h => h.finalize
      generalize (m.host.modules.get? x).bind (·.finalize) = f at hhook ⊢
      generalize (m'.host.modules.get? x).bind (·.finalize) = g at hhook ⊢
      have hlast (a : Registry) (failures : List (String × String)) (ha : a.handles = r.handles)
          (m m' : Machine) :
          let last : Work (Registry × ShutdownReport) := do
            let registry ← advance a x .finalized
            pure (registry, { finalized := report.finalized ++ [u.name],
                              failures := report.failures ++ failures })
          Paired q G m m' last last (Alike r Prod.fst) fun _ => G := by
        refine .bind (advance_paired a x .finalized) fun b _ _ _ hb => .pure ?_
        obtain ⟨rfl, hb⟩ := hb
        exact ⟨rfl, hb.trans ha⟩
      cases hhook with
      | none => exact hlast r [] rfl m m'
      | some h =>
        refine .bind (callHook_paired hn hx _ h r) fun e _ m m' he => ?_
        obtain ⟨rfl, he⟩ := he
        exact hlast _ _ he m m'

theorem finalizeUnits_paired (hn : n.Fair q) {xs : List UnitHandle} (hxs : ∀ x ∈ xs, x ∈ G)
    (r : Registry) (report : ShutdownReport) :
    Paired q G m m' (finalizeUnits n r report xs) (finalizeUnits n r report xs) (Alike r Prod.fst)
      fun _ => G := by
  induction xs generalizing r report m m' with
  | nil => exact .pure ⟨rfl, rfl⟩
  | cons x xs ih =>
    refine .bind (finalizeUnit_paired hn (hxs x (by simp)) r report) fun a _ _ _ ha => ?_
    obtain ⟨rfl, hr⟩ := ha
    refine (ih (fun y hy => hxs y (List.mem_cons_of_mem x hy)) a.1 a.2).imp ?_ fun _ _ ho => ho
    exact fun _ _ h => ⟨h.1, h.2.trans hr⟩

theorem finalizeAll_paired (hn : n.Fair q) {r : Registry} (hr : ∀ x ∈ r.handles, x ∈ G) :
    Paired q G m m' (finalizeAll n r) (finalizeAll n r) (Alike r Prod.fst) fun _ => G := by
  refine .bind (finalizeUnits_paired hn hr r {}) fun a _ _ _ ha => ?_
  obtain ⟨rfl, hh⟩ := ha
  exact .bind (releaseAll_paired (hh ▸ hr)) fun _ _ _ _ _ => .pure ⟨rfl, hh⟩

theorem abort_paired (hn : n.Fair q) {r : Registry} (hr : ∀ x ∈ r.handles, x ∈ G) :
    Agree q G m m' (abort n r) (abort n r) := by
  refine .bind (finalizeAll_paired hn hr) fun a _ _ _ ha => ?_
  obtain ⟨rfl, hh⟩ := ha
  exact releaseAll_paired (hh ▸ hr)

/-- What is compiled does not matter to the end of a runtime. -/
theorem finalize_paired (hn : n.Fair q) {rt : Runtime} (compiled : Keyed Method CompiledCall)
    (hr : ∀ x ∈ rt.registry.handles, x ∈ G) :
    Paired q G m m' (finalize n rt) (finalize n (rt.recompiled compiled))
      (fun a b => b = (a.1.recompiled compiled, a.2) ∧ a.1.registry.handles = rt.registry.handles)
      fun _ => G := by
  obtain ⟨registry, replacements, finalized⟩ := rt
  cases finalized with
  | true => exact .pure ⟨rfl, rfl⟩
  | false =>
    refine .bind (finalizeAll_paired hn hr) fun a _ _ _ ha => .pure ?_
    obtain ⟨rfl, hh⟩ := ha
    exact ⟨rfl, hh⟩

theorem drop_paired (hn : n.Fair q) {rt : Runtime} (compiled : Keyed Method CompiledCall)
    (hr : ∀ x ∈ rt.registry.handles, x ∈ G) :
    Agree q G m m' (drop n rt) (drop n (rt.recompiled compiled)) := by
  refine .bind (finalize_paired hn compiled hr) fun a _ _ _ ha => ?_
  obtain ⟨rfl, hh⟩ := ha
  exact releaseAll_paired (hh ▸ hr)

theorem shutdown_paired (hn : n.Fair q) {rt : Runtime} (compiled : Keyed Method CompiledCall)
    (hr : ∀ x ∈ rt.registry.handles, x ∈ G) :
    Agree q G m m' (shutdown n rt) (shutdown n (rt.recompiled compiled)) := by
  refine .bind (finalize_paired hn compiled hr) fun a _ _ _ ha => ?_
  obtain ⟨rfl, hh⟩ := ha
  exact .bind (drop_paired hn compiled (hh ▸ hr)) fun _ _ _ _ _ => .pure rfl

/-! ### The start of units -/

theorem load_rel {s s' : Source} (hs : Source.Alike q s s') (u : DeclaredUnit) :
    ExceptRel (fun a b => UnitModule.Alike q a.1 b.1 ∧
      (∀ x, Behaviour.Alike q (a.2.1 x) (b.2.1 x)) ∧ Behaviour.Alike q a.2.2 b.2.2)
      (load s u) (load s' u) := by
  cases hs with
  | @mk l l' _ hl =>
    have hu := hl u.option
    unfold load
    simp only
    generalize l u.option = a at hu ⊢
    generalize l' u.option = b at hu ⊢
    cases hu with
    | error e => exact .error _
    | @ok a b hab =>
      cases hab with
      | mk hi hp hf he =>
        cases hi with
        | none => exact .error _
        | some hi =>
          cases he with
          | none => exact .error _
          | some he => exact .ok ⟨.mk (.some hi) hp hf (.some he), hi, he⟩

theorem initUnit_paired (hn : n.Fair q) (r : Registry) (u : DeclaredUnit) (hu : u.handle ∈ G) :
    Paired q G m m' (initUnit n r u) (initUnit n r u) (Alike r Prod.snd) fun _ => G := by
  unfold initUnit
  refine .host fun _ t => ?_
  have hload := load_rel t.host.source u
  generalize load m.host.source u = a at hload ⊢
  generalize load m'.host.source u = b at hload ⊢
  cases hload with
  | error e => exact .pure ⟨rfl, rfl⟩
  | ok h =>
    obtain ⟨hmod, hinit, hexports⟩ := h
    refine .bind (attach_paired hu r hmod) fun r₁ _ _ _ h₁ => ?_
    obtain ⟨rfl, h₁⟩ := h₁
    refine .bind (callHook_paired hn hu .init hinit r₁) fun e _ _ _ h₂ => ?_
    obtain ⟨rfl, h₂⟩ := h₂
    cases e.error? .init u.name .initFailed with
    | some error =>
      refine .bind (advance_paired _ u.handle .initFailed) fun r₂ _ _ _ h₃ => .pure ?_
      obtain ⟨rfl, h₃⟩ := h₃
      exact ⟨rfl, h₃.trans (h₂.trans h₁)⟩
    | none =>
      refine .bind (advance_paired _ u.handle .activePending) fun r₂ _ _ _ h₃ => ?_
      obtain ⟨rfl, h₃⟩ := h₃
      have hunits : r₂.handles = r.handles := h₃.trans (h₂.trans h₁)
      refine .trace fun _ _ => .bind (.runCode hn hexports) fun table _ _ _ htable => ?_
      subst htable
      cases hr : (ExportTable.read u.name table).bind (r₂.registerEntries u.handle) with
      | error e => exact .pure ⟨rfl, hunits⟩
      | ok r₃ =>
        obtain ⟨es, _, hes⟩ := exists_of_bind_eq_ok hr
        have hext := Registry.extends_of_registerEntries hes
        exact .pure ⟨rfl, hext.handles_eq.trans hunits⟩

theorem initUnits_paired (hn : n.Fair q) (us : List DeclaredUnit) (hus : ∀ u ∈ us, u.handle ∈ G)
    (r : Registry) :
    Paired q G m m' (initUnits n r us) (initUnits n r us) (Alike r Prod.snd) fun _ => G := by
  induction us generalizing r m m' with
  | nil => exact .pure ⟨rfl, rfl⟩
  | cons u us ih =>
    refine .bind (initUnit_paired hn r u (hus u (by simp))) fun a _ _ _ ha => ?_
    obtain ⟨rfl, hr⟩ := ha
    obtain ⟨error, r₁⟩ := a
    cases error with
    | some e => exact .pure ⟨rfl, hr⟩
    | none =>
      refine (ih (fun v hv => hus v (List.mem_cons_of_mem u hv)) r₁).imp ?_ fun _ _ ho => ho
      exact fun _ _ h => ⟨h.1, h.2.trans hr⟩

theorem postInitUnit_paired (hn : n.Fair q) (r : Registry) (hx : x ∈ G) :
    Paired q G m m' (postInitUnit n r x) (postInitUnit n r x) (Alike r Prod.snd) fun _ => G := by
  unfold postInitUnit
  refine .host fun _ t => ?_
  have hhook := rel_bind (t.host.modules x) fun _ _ h => h.postInit
  generalize (m.host.modules.get? x).bind (·.postInit) = f at hhook ⊢
  generalize (m'.host.modules.get? x).bind (·.postInit) = g at hhook ⊢
  have hlast (error : Option StartupError) (a : Registry) (next : UnitState)
      (ha : a.handles = r.handles) (m m' : Machine) :
      let last : Work (Option StartupError × Registry) := do return (error, ← advance a x next)
      Paired q G m m' last last (Alike r Prod.snd) fun _ => G := by
    refine .bind (advance_paired a x next) fun b _ _ _ hb => .pure ?_
    obtain ⟨rfl, hb⟩ := hb
    exact ⟨rfl, hb.trans ha⟩
  cases hhook with
  | none => exact hlast none r .active rfl m m'
  | some h =>
    refine .bind (callHook_paired hn hx _ h r) fun e _ m m' he => ?_
    obtain ⟨rfl, he⟩ := he
    cases e.error? .postInit _ .postInitFailed with
    | some error => exact hlast (some error) _ .postInitFailed he m m'
    | none => exact hlast none _ .active he m m'

theorem postInitUnits_paired (hn : n.Fair q) {xs : List UnitHandle} (hxs : ∀ x ∈ xs, x ∈ G)
    (r : Registry) :
    Paired q G m m' (postInitUnits n r xs) (postInitUnits n r xs) (Alike r Prod.snd)
      fun _ => G := by
  induction xs generalizing r m m' with
  | nil => exact .pure ⟨rfl, rfl⟩
  | cons x xs ih =>
    refine .bind (postInitUnit_paired hn r (hxs x (by simp))) fun a _ _ _ ha => ?_
    obtain ⟨rfl, hr⟩ := ha
    obtain ⟨error, r₁⟩ := a
    cases error with
    | some e => exact .pure ⟨rfl, hr⟩
    | none =>
      refine (ih (fun y hy => hxs y (List.mem_cons_of_mem x hy)) r₁).imp ?_ fun _ _ ho => ho
      exact fun _ _ h => ⟨h.1, h.2.trans hr⟩

theorem undone_paired (hn : n.Fair q) {r : Registry} (hr : ∀ x ∈ r.handles, x ∈ G)
    {w : Work (Option StartupError × Registry)}
    (hw : Paired q G m m' w w (Alike r Prod.snd) fun _ => G) :
    let phase : Work (Except StartupError Registry) := do
      match ← w with
      | (none, registry) => return .ok registry
      | (some e, registry) =>
        abort n registry
        return .error e
    Agree q G m m' phase phase := by
  refine .bind hw fun a _ _ _ ha => ?_
  obtain ⟨rfl, hh⟩ := ha
  obtain ⟨error, r₁⟩ := a
  cases error with
  | none => exact .pure rfl
  | some e => exact .bind (abort_paired hn (hh ▸ hr)) fun _ _ _ _ _ => .pure rfl

theorem loadAll_paired (hn : n.Fair q) {r : Registry} (hr : ∀ x ∈ r.handles, x ∈ G) :
    Agree q G m m' (loadAll n r) (loadAll n r) :=
  undone_paired hn hr
    (initUnits_paired hn r.units (fun _ hu => hr _ (List.mem_map_of_mem hu)) r)

theorem postInitAll_paired (hn : n.Fair q) {r : Registry} (hr : ∀ x ∈ r.handles, x ∈ G) :
    Agree q G m m' (postInitAll n r) (postInitAll n r) :=
  undone_paired hn hr (postInitUnits_paired hn hr r)

theorem declareAll_twin (options : List UnitOption) (r : Registry) (t : m.Twin q m') :
    (declareAll r options).result m' = (declareAll r options).result m ∧
      ((declareAll r options).after m).Twin q ((declareAll r options).after m') := by
  induction options generalizing r m m' with
  | nil => exact ⟨rfl, t⟩
  | cons o os ih =>
    have hnext : m'.nextHandle = m.nextHandle := by cases t; rfl
    unfold declareAll
    simp only [Work.result_bind, Work.after_bind, Work.result_get, Work.after_get, hnext]
    cases r.register o m.nextHandle with
    | error e => exact ⟨rfl, t⟩
    | ok r₁ =>
      have t₁ : ({ m with nextHandle := m.nextHandle + 1 } : Machine).Twin q
          { m' with nextHandle := m'.nextHandle + 1 } := by
        cases t with | mk hh hw hs => exact .mk hh hw hs
      exact ih r₁ t₁

end Startup

end AccelHost
