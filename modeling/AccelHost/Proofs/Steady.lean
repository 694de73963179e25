import AccelHost.Proofs.DispatchMoves

/-!
A runtime that stays in use. As long as it is the same runtime, nothing is told about its units and
their modules stay, whatever foreign code does meanwhile.
-/
namespace AccelHost

open Holding

/-- A runtime that is in use later was in use before, unless it was published since. -/
theorem Around.runtime_of_id {m m' : Machine} (ha : Around m m') {r' : Runtime}
    (hr' : m'.host.runtime = some r') (hid : r'.replacements.id < m.host.serial) :
    ∃ r, m.host.runtime = some r ∧ r.replacements.id = r'.replacements.id := by
  have hmem : (⟨true, r'.replacements.id, r'.replacements.published⟩ : Publication) ∈
      m'.host.publications := by simp [Host.publications, hr']
  rcases ha.published _ hmem with hp | hp
  · simp only [Host.publications, List.mem_append, Option.mem_toList, Option.map_eq_some_iff,
      Publication.mk.injEq, Bool.false_eq_true, false_and, and_false, exists_false, or_false,
      true_and] at hp
    obtain ⟨r, hr, hi, _⟩ := hp
    exact ⟨r, hr, hi⟩
  · exact absurd hid (Nat.not_lt.2 hp)

theorem Host.mem_held_of_runtime {h : Host} {r : Runtime} (hr : h.runtime = some r)
    {x : UnitHandle} (hx : x ∈ r.registry.handles) : x ∈ h.held := by
  simp [held, hr, hx]

theorem Moves.steady {X Y : List Holding} {m m' : Machine} (h : Moves X m Y m')
    {G : List UnitHandle} (ho : m.Orderly (units X ++ G)) {r r' : Runtime}
    (hr : m.host.runtime = some r) (hr' : m'.host.runtime = some r')
    (hid : r'.replacements.id = r.replacements.id) :
    r'.registry = r.registry ∧ Framed r.registry.handles m m' := by
  -- Where the runtime and the modules are the same and nothing is told there is nothing to show.
  have hsame : ∀ {m m' : Machine} {r r' : Runtime}, m.host.runtime = some r →
      m'.host.runtime = some r' → m'.host.runtime = m.host.runtime → m'.trace = m.trace →
      m'.host.modules = m.host.modules →
      r'.registry = r.registry ∧ Framed r.registry.handles m m' := by
    intro m m' r r' hr hr' he ht hm
    rw [he, hr] at hr'
    cases hr'
    exact ⟨rfl, .of_eq ht hm⟩
  induction h generalizing G r r' with
  | @trans X Y Z m₁ m₂ m₃ h₁ h₂ ih₁ ih₂ =>
    obtain ⟨ho₂, _⟩ := h₁.orderly ho
    have hlt : r'.replacements.id < m₂.host.serial := by
      rw [hid]
      exact Nat.lt_of_lt_of_le (ho.host.runtime r hr).serial h₁.around.serial
    obtain ⟨r₂, hr₂, hid₂⟩ := h₂.around.runtime_of_id hr' hlt
    obtain ⟨he₁, hf₁⟩ := ih₁ ho hr hr₂ (hid₂.trans hid)
    obtain ⟨he₂, hf₂⟩ := ih₂ ho₂ hr₂ hr' hid₂.symm
    rw [he₁] at he₂ hf₂
    exact ⟨he₂, hf₁.trans h₁.around hf₂⟩
  | quiet hq _ => exact hsame hr hr' (by rw [hq.rest]) rfl (by rw [hq.rest])
  | @event X m e he =>
    rw [hr] at hr'
    cases hr'
    refine ⟨rfl, ⟨[e], rfl, fun e' hm x hx => ?_⟩, fun _ _ => rfl⟩
    cases List.mem_singleton.1 hm
    have hX : x ∉ m.held := ho.not_mem_held (List.mem_append_left _ (mem_units.2 (he x hx)))
    simp only [Machine.held, List.mem_append, not_or] at hX
    exact ⟨fun hx' => hX.1 (Host.mem_held_of_runtime hr hx'), hX.2⟩
  | callback hc =>
    cases waited_of_answerInnermost hc with
    | cons hh _ => exact hsame hr hr' (by rw [hh.rest]) rfl hh.modules_eq
  | @hook X Y m m' s _ ih =>
    obtain ⟨he, hf⟩ := ih (ho.of_same rfl { Host.Same.refl m.host with } rfl) hr hr' hid
    exact ⟨he, hf.trace, hf.modules⟩
  | @nested X m m' p hn _ =>
    have hf := (hn.orderly (G := units X ++ G) (ho.enter p)).2.of_nested hn.around
    have hh := hn.around.waited_leave.1
    rw [hh.rest] at hr'
    simp only [hr, Option.some.injEq] at hr'
    cases hr'
    exact ⟨rfl, hf.mono fun x hx => List.mem_append_left _ (Host.mem_held_of_runtime hr hx)⟩
  | @attach X m x mod hx =>
    rw [show m.host.runtime = some r' from hr'] at hr
    cases hr
    have hX : x ∉ m.host.held := ho.not_mem_host (List.mem_append_left _ (mem_units.2 hx))
    refine ⟨rfl, ⟨[], by simp [Machine.withHost], by simp⟩, fun y hy => ?_⟩
    refine Keyed.get?_set_of_ne (fun he => hX ?_) mod _
    rw [he]
    exact Host.mem_held_of_runtime hr' hy
  | @release X m x hx =>
    rw [show m.host.runtime = some r' from hr'] at hr
    cases hr
    have hX : x ∉ m.host.held := ho.not_mem_host (List.mem_append_left _ (mem_units.2 hx))
    refine ⟨rfl, ⟨[], by simp [Machine.withHost], by simp⟩, fun y hy => ?_⟩
    refine Keyed.get?_erase_of_ne (fun he => hX ?_) _
    rw [he]
    exact Host.mem_held_of_runtime hr' hy
  | install hn => rw [hn] at hr; cases hr
  | retire => cases hr'
  | @cache X m s method e func hs =>
    refine ⟨?_, .of_eq rfl Host.modules_modifyReplacements⟩
    simp only [Machine.withHost, Host.modifyReplacements, hr, Option.some.injEq] at hr'
    rw [← hr']
  | _ => exact hsame hr hr' rfl rfl rfl

end AccelHost
