import AccelHost.Proofs.DispatchMoves

/-!
What a call pins. Every argument that is a reference is pinned once, in the order of the arguments,
and whatever was pinned goes back when the call returns.
-/
namespace AccelHost

open Holding

inductive Heap.Pins : Heap → List Guard → Heap → Prop where
  | nil {h : Heap} : Pins h [] h
  | cons {h h₁ h₂ : Heap} {r : ObjRef} {g : Guard} {gs : List Guard} :
      h.pin r = .ok (g, h₁) → Pins h₁ gs h₂ → Pins h (g :: gs) h₂

theorem Heap.Pins.append {h h₁ h₂ : Heap} {gs gs' : List Guard} (hp : h.Pins gs h₁)
    (hp' : h₁.Pins gs' h₂) : h.Pins (gs ++ gs') h₂ := by
  induction hp with
  | nil => exact hp'
  | cons hr _ ih => exact .cons hr (ih hp')

namespace Marshalled

/-- From one stage of handing over arguments to another, what was pinned in between. -/
def Pinned (s s' : Marshalled) : Prop :=
  ∃ gs, s'.guards = s.guards ++ gs ∧ s.heap.Pins gs s'.heap

variable {s s' : Marshalled}

theorem Pinned.refl (s : Marshalled) : s.Pinned s := ⟨[], by simp, .nil⟩

theorem pinned_push (s : Marshalled) (args : List NativeArg) : s.Pinned (s.push args) :=
  ⟨[], by simp [push], .nil⟩

theorem Pinned.trans {s₁ s₂ s₃ : Marshalled} (h : s₁.Pinned s₂) (h' : s₂.Pinned s₃) :
    s₁.Pinned s₃ := by
  obtain ⟨gs, hg, hp⟩ := h
  obtain ⟨gs', hg', hp'⟩ := h'
  exact ⟨gs ++ gs', by rw [hg', hg, List.append_assoc], hp.append hp'⟩

theorem pinned_pin (s : Marshalled) (r : ObjRef) (args : Guard → Option (List NativeArg))
    (otherwise : DispatchError) : s.Pinned (s.pin r args otherwise).2 := by
  unfold pin
  split
  · exact .refl s
  · rename_i g heap hp
    have hpin : s.Pinned { s with heap, guards := s.guards ++ [g] } := ⟨[g], rfl, .cons hp .nil⟩
    dsimp only
    split
    · exact hpin.trans (pinned_push _ _)
    · exact hpin

theorem pinned_add (s : Marshalled) (method : Method) (index : Nat) (kind : ParamKind)
    (v : Value) : s.Pinned (s.add method index kind v).2 := by
  unfold add
  dsimp only
  split
  · split
    · exact pinned_push s _
    · exact .refl s
  · exact .refl s
  · exact pinned_push s _
  · exact pinned_pin s _ _ _
  · exact pinned_pin s _ _ _
  · exact .refl s
  · split
    · exact .refl s
    · split
      · exact pinned_pin s _ _ _
      · exact .refl s
  · exact .refl s

theorem pinned_addAll (method : Method) (index : Nat) (kinds : List ParamKind)
    (values : List Value) (s : Marshalled) :
    s.Pinned (addAll method index kinds values s).2 := by
  induction kinds generalizing index values s with
  | nil => exact .refl s
  | cons k ks ih =>
    cases values with
    | nil => exact .refl s
    | cons v vs =>
      have hadd := s.pinned_add method index k v
      unfold addAll
      split
      · rename_i s' hs
        rw [hs] at hadd
        exact hadd.trans (ih _ _ _)
      · rename_i hs
        rw [hs] at hadd
        exact hadd

end Marshalled

theorem CallPlan.pins_marshal (p : CallPlan) (h : Heap) (args : List Value) :
    h.Pins (p.marshal h args).2.guards (p.marshal h args).2.heap := by
  obtain ⟨gs, hg, hp⟩ := Marshalled.pinned_addAll p.entry.method 0
    p.entry.convention.nativeParams args { heap := h }
  simp only [List.nil_append] at hg
  rw [marshal, hg]
  exact hp

namespace Moves

variable {X : List Holding} {m : Machine}

theorem pins {gs : List Guard} {heap : Heap} (hp : m.host.heap.Pins gs heap) :
    Moves X m (ofGuards gs ++ X) (m.withHost { m.host with heap }) := by
  generalize hh : m.host.heap = h at hp
  induction hp generalizing m X with
  | nil =>
    subst hh
    exact .refl X m
  | @cons _ h₁ h₂ r g gs hr _ ih =>
    subst hh
    refine .trans (.pin hr) (.trans (ih (m := m.withHost { m.host with heap := h₁ }) rfl) ?_)
    exact .perm List.perm_middle

theorem unpinAll (gs : List Guard) :
    Moves (ofGuards gs ++ X) m X (m.withHost { m.host with heap := m.host.heap.unpinAll gs }) := by
  induction gs generalizing m with
  | nil => exact .refl X m
  | cons g gs ih =>
    exact .trans .unpin (ih (m := m.withHost { m.host with heap := m.host.heap.unpin g }))

end Moves

namespace Dispatch

variable {n : Nested} {G : List UnitHandle} {X : List Holding} {m : Machine}

theorem call_carries (hn : n.Lawful) (p : CallPlan) (args : List Value) :
    Carries G X m (call n p args) fun _ => X := by
  unfold call
  refine .host ?_
  split
  · exact .pure
  · split
    · exact .pure
    · refine .host ?_
      have hpins := p.pins_marshal m.host.heap args
      generalize p.marshal m.host.heap args = handed at hpins ⊢
      obtain ⟨error, s⟩ := handed
      refine .modifyHost (.pins hpins) ?_
      dsimp only
      split
      · exact .pure_bind (.modifyHost (.unpinAll s.guards) .pure)
      · refine .bind (runNative_carries hn _ _) fun _ _ => .host ?_
        exact .pure_bind (.modifyHost (.unpinAll s.guards) .pure)

theorem interpret_carries (hn : n.Lawful) (e : Entry) (args : List Value) :
    Carries G X m (interpret n e args) fun _ => X := by
  unfold interpret
  refine .bind (lower_carries hn e) fun _ _ => ?_
  split
  · exact .pure
  · exact call_carries hn _ args

theorem compileEntry_carries (hn : n.Lawful) (e : Entry) :
    Carries G X m (compileEntry n e) fun _ => X := by
  unfold compileEntry
  refine .bind (lower_carries hn e) fun _ _ => ?_
  split
  · exact .pure
  · exact .bind .fresh fun _ _ => .pure

def plan (n : Nested) (rs : Replacements) (method : Method) :
    CallMode → Work (Except DispatchError CallPlan)
  | .interpreted =>
    match rs.published.find? method with
    | none => return .error (.notReplaced method)
    | some e => lower n e
  | .compiled => do return (← compile n rs method).map (·.plan)

theorem invoke_eq (n : Nested) (rs : Replacements) (method : Method) (mode : CallMode)
    (args : List Value) : invoke n rs method mode args = (do
      match ← plan n rs method mode with
      | .error e => return .error e
      | .ok p => call n p args) := by
  cases mode with
  | interpreted =>
    unfold invoke plan
    cases rs.published.find? method with
    | none => rfl
    | some e => rfl
  | compiled =>
    unfold invoke plan
    simp only [bind_assoc, pure_bind]
    congr 1
    funext c
    cases c <;> rfl

theorem plan_carries (hn : n.Lawful) {rs : Replacements} (method : Method) (mode : CallMode)
    (hrs : m.host.replacements? = some rs) :
    Carries G X m (plan n rs method mode) fun _ => X := by
  unfold plan
  split
  · split
    · exact .pure
    · exact lower_carries hn _
  · exact .bind (compile_carries hn method hrs) fun _ _ => .pure

theorem invoke_carries (hn : n.Lawful) {rs : Replacements} (method : Method) (mode : CallMode)
    (args : List Value) (hrs : m.host.replacements? = some rs) :
    Carries G X m (invoke n rs method mode args) fun _ => X := by
  rw [invoke_eq]
  refine .bind (plan_carries hn method mode hrs) fun _ _ => ?_
  split
  · exact .pure
  · exact call_carries hn _ args

end Dispatch

end AccelHost
