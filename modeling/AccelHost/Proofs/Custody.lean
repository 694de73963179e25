import AccelHost.Proofs.Amid

/-!
Who has the module of a unit. A module is loaded for as long as its unit is in the hands of work in
progress, waits for the second phase of its startup, or is in use by a runtime, and no longer. A
unit that has left all of these does not come back.
-/
namespace AccelHost

open Holding

namespace Host

/-- The units that are pending or in use by a runtime. -/
def live (h : Host) : List UnitHandle :=
  h.pending.elim [] Registry.handles ++ h.runtime.elim [] fun r => r.registry.handles

/-- Every module that is loaded belongs to a unit that is live or among those in hand. -/
def Tidy (K : List UnitHandle) (h : Host) : Prop :=
  ∀ x, (h.modules.get? x).isSome → x ∈ K ++ h.live

variable {h h' : Host} {x : UnitHandle}

theorem mem_held_of_mem_live (hx : x ∈ h.live) : x ∈ h.held := by
  rw [held, ← List.append_assoc]
  exact List.mem_append_left _ hx

theorem Orderly.isSome_of_mem_live {next : UnitHandle} (ho : h.Orderly next) (hx : x ∈ h.live) :
    (h.modules.get? x).isSome := by
  have hholds {state : UnitState} {r : Registry} (hr : h.Holds state r) (hx : x ∈ r.handles) :
      (h.modules.get? x).isSome := by
    obtain ⟨u, hu, rfl⟩ := List.mem_map.1 hx
    obtain ⟨-, mod, -, hmod⟩ := hr.2 u hu
    rw [hmod]
    rfl
  rcases List.mem_append.1 hx with hx | hx
  · cases hp : h.pending with
    | none =>
      rw [hp] at hx
      cases hx
    | some r =>
      rw [hp] at hx
      exact hholds (ho.pending r hp) hx
  · cases hr : h.runtime with
    | none =>
      rw [hr] at hx
      cases hx
    | some rt =>
      rw [hr] at hx
      exact hholds (ho.runtime rt hr).registry hx

theorem Same.live_eq (s : h.Same h') : h'.live = h.live := by rw [live, s.pending, s.runtime, live]

theorem live_modifyReplacements {f : Replacements → Replacements} :
    (h.modifyReplacements f).live = h.live := by
  unfold modifyReplacements live
  cases h.runtime <;> rfl

end Host

/-- A unit that was declared once, is in nobody's hands any more and not live either. -/
structure Machine.Gone (K : List UnitHandle) (m : Machine) (x : UnitHandle) : Prop where
  given : x < m.nextHandle
  left : x ∉ K ++ m.host.live

/-- From a machine to a later one no module is lost sight of, and what has gone does not come back.
In hand are some units before and some after. -/
structure Passes (K : List UnitHandle) (m : Machine) (K' : List UnitHandle) (m' : Machine) :
    Prop where
  tidy : m.host.Tidy K → m'.host.Tidy K'
  gone : ∀ x, m.Gone K x → m'.Gone K' x

namespace Passes

variable {K K' K'' : List UnitHandle} {m m' m'' : Machine}

theorem trans (h : Passes K m K' m') (h' : Passes K' m' K'' m'') : Passes K m K'' m'' where
  tidy ht := h'.tidy (h.tidy ht)
  gone x hx := h'.gone x (h.gone x hx)

/-- Units change hands, and each stays in some. -/
theorem of_iff (hn : m.nextHandle ≤ m'.nextHandle) (hm : m'.host.modules = m.host.modules)
    (hK : ∀ x, x ∈ K' ++ m'.host.live ↔ x ∈ K ++ m.host.live) : Passes K m K' m' where
  tidy ht x hx := (hK x).2 (ht x (hm ▸ hx))
  gone x hx := ⟨Nat.lt_of_lt_of_le hx.given hn, fun hmem => hx.left ((hK x).1 hmem)⟩

theorem of_same (hn : m.nextHandle ≤ m'.nextHandle) (s : m.host.Same m'.host) :
    Passes K m K m' := .of_iff hn s.modules fun x => by rw [s.live_eq]

theorem of_modules {x : UnitHandle} {t : Keyed UnitHandle UnitModule}
    {f : Keyed UnitHandle Bool} (hx : x ∈ K)
    (ht : ∀ y, x ≠ y → t.get? y = m.host.modules.get? y) :
    Passes K m K (m.withHost { m.host with modules := t, loaded := f }) where
  tidy htidy y hy := by
    by_cases he : x = y
    · exact List.mem_append_left _ (he ▸ hx)
    · exact htidy y (ht y he ▸ hy)
  gone _ hy := ⟨hy.given, hy.left⟩

theorem of_none {x : UnitHandle} (hn : m'.nextHandle = m.nextHandle)
    (hm : m'.host.modules = m.host.modules) (hl : m'.host.live = m.host.live)
    (hnone : m.host.modules.get? x = none) : Passes (x :: K) m K m' where
  tidy ht y hy := by
    rw [hm] at hy
    rcases List.mem_cons.1 (ht y hy) with rfl | hmem
    · rw [hnone] at hy
      cases hy
    · rwa [hl]
  gone y hy := by
    refine ⟨hn ▸ hy.given, fun hmem => hy.left (List.mem_cons_of_mem x ?_)⟩
    rwa [hl] at hmem

end Passes

theorem Moves.passes {X Y : List Holding} {G : List UnitHandle} {m m' : Machine}
    (h : Moves X m Y m') : Passes (units X ++ G) m (units Y ++ G) m' := by
  induction h with
  | perm hp =>
    refine .of_iff (Nat.le_refl _) rfl fun x => ?_
    simp only [List.mem_append, (units_perm hp).mem_iff]
  | trans _ _ ih₁ ih₂ => exact ih₁.trans ih₂
  | @quiet X m h j stuck hq hs =>
    refine .of_same (Nat.le_refl _) ?_
    rw [hq.rest]
    exact { Host.Same.refl m.host with serial := hq.serial }
  | @event X m => exact .of_same (Nat.le_refl _) (.refl m.host)
  | @heap X m => exact .of_same (Nat.le_refl _) { Host.Same.refl m.host with }
  | @pin X m => exact .of_same (Nat.le_refl _) { Host.Same.refl m.host with }
  | @unpin X m => exact .of_same (Nat.le_refl _) { Host.Same.refl m.host with }
  | @name X m =>
    rw [units_append, units_ofGuards, List.nil_append]
    exact .of_same (Nat.le_refl _) { Host.Same.refl m.host with }
  | @unname X m => exact .of_same (Nat.le_refl _) { Host.Same.refl m.host with }
  | @unnameAll X m =>
    rw [units_append, units_ofGuards, List.nil_append]
    exact .of_same (Nat.le_refl _) { Host.Same.refl m.host with }
  | callback hc =>
    cases waited_of_answerInnermost hc with
    | cons hh _ => exact .of_same (Nat.le_refl _) hh.same
  | @hook X Y m m' s _ ih =>
    have hpush : Passes (units X ++ G) m _ (m.push s) :=
      .of_same (Nat.le_refl _) { Host.Same.refl m.host with }
    exact (hpush.trans ih).trans (.of_same (Nat.le_refl _) { Host.Same.refl m'.host with })
  | nested hn =>
    have ha := hn.around
    exact .of_same ha.of_nested.nextHandle ha.waited_leave.1.same
  | @declare X m =>
    refine ⟨fun ht x hx => List.mem_cons_of_mem _ (ht x hx), fun x hx => ?_⟩
    refine ⟨Nat.lt_succ_of_lt hx.given, fun hmem => ?_⟩
    rcases List.mem_cons.1 hmem with rfl | hmem
    · exact Nat.lt_irrefl _ hx.given
    · exact hx.left hmem
  | @attach X m x mod hx =>
    exact .of_modules (List.mem_append_left _ (mem_units.2 hx))
      fun y hy => Keyed.get?_set_of_ne hy mod _
  | @release X m x hx =>
    exact .of_modules (List.mem_append_left _ (mem_units.2 hx))
      fun y hy => Keyed.get?_erase_of_ne hy _
  | @suspend X m r hnone =>
    refine .of_iff (Nat.le_refl _) rfl fun x => ?_
    simp only [Host.live, Machine.withHost, hnone, units_append, units_ofUnits, Option.elim_none,
      Option.elim_some, List.mem_append, List.nil_append]
    tauto
  | @resume X m r hr =>
    refine .of_iff (Nat.le_refl _) rfl fun x => ?_
    simp only [Host.live, Machine.withHost, hr, units_append, units_ofUnits, Option.elim_none,
      Option.elim_some, List.mem_append, List.nil_append]
    tauto
  | @install X m r hnone =>
    refine .of_iff (Nat.le_refl _) rfl fun x => ?_
    simp only [Host.live, Machine.withHost, Host.serve, hnone, units_append, units_ofUnits,
      Option.elim_none, Option.elim_some, List.mem_append, List.append_nil]
    tauto
  | @retire X m r hr =>
    refine .of_iff (Nat.le_refl _) rfl fun x => ?_
    simp only [Host.live, Machine.withHost, hr, units_append, units_ofUnits, Option.elim_none,
      Option.elim_some, List.mem_append, List.append_nil]
    tauto
  | bareUnit hnone => exact .of_none rfl rfl rfl hnone
  | bareEntries => exact .of_iff (Nat.le_refl _) rfl fun _ => .rfl
  | expose => exact .of_iff (Nat.le_refl _) rfl fun _ => .rfl
  | provide => exact .of_iff (Nat.le_refl _) rfl fun _ => .rfl
  | cache =>
    refine .of_iff (Nat.le_refl _) Host.modules_modifyReplacements fun x => ?_
    rw [Machine.withHost, Host.live_modifyReplacements]
  | discard hnone => exact .of_none rfl rfl rfl hnone

/-- A machine in order that keeps sight of every module, while some units are in hand. -/
structure Machine.Custody (K : List UnitHandle) (m : Machine) : Prop where
  orderly : m.Orderly K
  tidy : m.host.Tidy K

namespace Machine

variable {m m' : Machine} {K : List UnitHandle} {x : UnitHandle}

theorem custody_ofProgram (p : Program) : (ofProgram p).Custody [] :=
  ⟨orderly_ofProgram p, fun _ hx => by cases hx⟩

theorem Custody.moves {X Y : List Holding} {G : List UnitHandle}
    (hc : m.Custody (units X ++ G)) (h : Moves X m Y m') : m'.Custody (units Y ++ G) :=
  ⟨(h.orderly hc.orderly).1, h.passes.tidy hc.tidy⟩

theorem Gone.module_eq_none (hx : m.Gone K x) (hc : m.Custody K) :
    m.host.modules.get? x = none := by
  by_contra hsome
  exact hx.left (hc.tidy x (Option.isSome_iff_ne_none.2 hsome))

/-- Units in hand whose modules are gone may be forgotten, and have gone then. -/
theorem Custody.forget {xs : List UnitHandle} (hc : m.Custody (xs ++ K))
    (hnone : ∀ x ∈ xs, m.host.modules.get? x = none) :
    m.Custody K ∧ ∀ x ∈ xs, m.Gone K x := by
  refine ⟨⟨hc.orderly.forget, fun x hx => ?_⟩, fun x hx => ⟨?_, fun hmem => ?_⟩⟩
  · have hmem := hc.tidy x hx
    rw [List.append_assoc, List.mem_append] at hmem
    refine hmem.resolve_left fun hxs => ?_
    rw [hnone x hxs] at hx
    cases hx
  · exact hc.orderly.lt_nextHandle (List.mem_append_left _ hx)
  · rcases List.mem_append.1 hmem with hK | hlive
    · exact hc.orderly.ne_of_mem hx hK rfl
    · exact hc.orderly.not_mem_host (List.mem_append_left _ hx) (Host.mem_held_of_mem_live hlive)

end Machine

/-- In the course of moves the machines keep sight of every module, and what has gone stays away. -/
theorem Amid.custody {X : List Holding} {G : List UnitHandle} {m m' : Machine} (h : Amid X m m')
    (hc : m.Custody (units X ++ G)) :
    ∃ K, m'.Custody K ∧ ∀ x, m.Gone (units X ++ G) x → m'.Gone K x := by
  induction h generalizing G with
  | moves hm => exact ⟨_, hc.moves hm, hm.passes.gone⟩
  | @hook X Y m m₁ m' s hm _ ih =>
    have hpush : Passes (units Y ++ G) m₁ (units Y ++ G) (m₁.push s) :=
      .of_same (Nat.le_refl _) { Host.Same.refl m₁.host with }
    have hc₁ := hc.moves hm
    obtain ⟨K, hK, hgone⟩ := ih ⟨hc₁.orderly.push s, hpush.tidy hc₁.tidy⟩
    exact ⟨K, hK, fun x hx => hgone x (hpush.gone x (hm.passes.gone x hx))⟩
  | @nested X Y m m₁ m' p hm _ ih =>
    -- The program within has a host of its own, in which no unit is live.
    have hc₁ := hc.moves hm
    obtain ⟨K, hK, hgone⟩ := ih (G := units Y ++ G)
      ⟨hc₁.orderly.enter p, fun _ hx => by cases hx⟩
    refine ⟨K, hK, fun x hx => hgone x ⟨(hm.passes.gone x hx).given, fun hmem => ?_⟩⟩
    have hempty : (m₁.enter p).host.live = [] := rfl
    rw [hempty, List.append_nil] at hmem
    exact (hm.passes.gone x hx).left (List.mem_append_left _ hmem)
  | @left X Y m m₁ m' hm _ ih =>
    have hpop : Passes (units Y ++ G) m₁ (units Y ++ G) m₁.pop :=
      .of_same (Nat.le_refl _) { Host.Same.refl m₁.host with }
    have hc₁ := hc.moves hm
    obtain ⟨K, hK, hgone⟩ := ih ⟨hc₁.orderly.pop, hpop.tidy hc₁.tidy⟩
    exact ⟨K, hK, fun x hx => hgone x (hpop.gone x (hm.passes.gone x hx))⟩

end AccelHost
