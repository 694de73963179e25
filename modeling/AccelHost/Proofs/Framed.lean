import AccelHost.Proofs.Orderly
import Mathlib.Data.List.Nodup

/-!
Moves keep a machine in order, and they leave alone what others hold: no event is about a unit in
other hands, and its module stays.
-/
namespace AccelHost

namespace Machine

variable {m m' : Machine} {G G' : List UnitHandle}

/-- The units of all registries, of the host at work and of those that wait. -/
def held (m : Machine) : List UnitHandle := m.host.held ++ m.waiting.flatMap Host.held

/-- A machine in order, while some units are in hand. -/
structure Orderly (G : List UnitHandle) (m : Machine) : Prop where
  distinct : (G ++ m.held).Nodup
  declared : ∀ x ∈ G ++ m.held, x < m.nextHandle
  host : m.host.Orderly m.nextHandle
  waiting : ∀ h ∈ m.waiting, h.Orderly m.nextHandle

theorem Orderly.nodup {xs : List UnitHandle} (ho : m.Orderly (xs ++ G)) : xs.Nodup :=
  (List.nodup_append.1 (List.nodup_append.1 ho.distinct).1).1

theorem Orderly.not_mem_held {x : UnitHandle} (ho : m.Orderly G) (hx : x ∈ G) : x ∉ m.held :=
  fun hm => (List.nodup_append.1 ho.distinct).2.2 x hx x hm rfl

theorem Orderly.not_mem_host {x : UnitHandle} (ho : m.Orderly G) (hx : x ∈ G) :
    x ∉ m.host.held := fun hm => ho.not_mem_held hx (List.mem_append_left _ hm)

theorem Orderly.lt_nextHandle {x : UnitHandle} (ho : m.Orderly G) (hx : x ∈ G) :
    x < m.nextHandle := ho.declared x (List.mem_append_left _ hx)

theorem Orderly.ne_of_mem {X : List UnitHandle} {x y : UnitHandle} (ho : m.Orderly (X ++ G))
    (hx : x ∈ X) (hy : y ∈ G) : x ≠ y :=
  (List.nodup_append.1 (List.nodup_append.1 ho.distinct).1).2.2 x hx y hy

theorem Orderly.of_count (ho : m.Orderly G)
    (hc : ∀ x, (G' ++ m'.held).count x ≤ (G ++ m.held).count x)
    (hn : m'.nextHandle = m.nextHandle) (hh : m'.host.Orderly m.nextHandle)
    (hw : ∀ h ∈ m'.waiting, h.Orderly m.nextHandle) : m'.Orderly G' where
  distinct := List.nodup_iff_count_le_one.2 fun x =>
    Nat.le_trans (hc x) (List.nodup_iff_count_le_one.1 ho.distinct x)
  declared x hx := by
    rw [hn]
    refine ho.declared x (List.count_pos_iff.1 ?_)
    exact Nat.lt_of_lt_of_le (List.count_pos_iff.2 hx) (hc x)
  host := by rw [hn]; exact hh
  waiting := by rw [hn]; exact hw

theorem Orderly.forget {xs : List UnitHandle} (ho : m.Orderly (xs ++ G)) : m.Orderly G := by
  refine ho.of_count (fun x => ?_) rfl ho.host ho.waiting
  rw [List.append_assoc]
  exact (List.sublist_append_right xs _).count_le x

theorem Orderly.of_same (ho : m.Orderly G) (hn : m'.nextHandle = m.nextHandle)
    (hs : m.host.Same m'.host) (hw : m'.waiting = m.waiting) : m'.Orderly G := by
  refine ho.of_count (fun x => ?_) hn (ho.host.of_same hs) (hw ▸ ho.waiting)
  exact Nat.le_of_eq (by rw [held, hs.held_eq, hw, held])

theorem held_of_waited {hosts hosts' : List Host} (hw : List.Forall₂ Host.Waited hosts hosts') :
    hosts'.flatMap Host.held = hosts.flatMap Host.held := by
  induction hw with
  | nil => rfl
  | cons h _ ih => simp only [List.flatMap_cons, h.same.held_eq, ih]

theorem orderly_of_waited {next : UnitHandle} {hosts hosts' : List Host}
    (hw : List.Forall₂ Host.Waited hosts hosts') (ho : ∀ h ∈ hosts, h.Orderly next) :
    ∀ h ∈ hosts', h.Orderly next := by
  induction hw with
  | nil => simp
  | cons hwait _ ih =>
    intro h hm
    rcases List.mem_cons.1 hm with rfl | hm
    · exact (ho _ (by simp)).of_same hwait.same
    · exact ih (fun h hm => ho h (List.mem_cons_of_mem _ hm)) h hm

theorem Orderly.of_waited (ho : m.Orderly G) (hn : m'.nextHandle = m.nextHandle)
    (hs : m.host.Waited m'.host) (hw : List.Forall₂ Host.Waited m.waiting m'.waiting) :
    m'.Orderly G := by
  refine ho.of_count (fun x => ?_) hn (ho.host.of_same hs.same) (orderly_of_waited hw ho.waiting)
  exact Nat.le_of_eq (by rw [held, hs.same.held_eq, held_of_waited hw, held])

theorem Orderly.enter (ho : m.Orderly G) (p : Program) : (m.enter p).Orderly G := by
  refine ho.of_count (fun x => Nat.le_refl _) rfl (Host.orderly_ofProgram p _) fun h hm => ?_
  rcases List.mem_cons.1 hm with rfl | hm
  · exact ho.host
  · exact ho.waiting h hm

theorem Orderly.leave (ho : m.Orderly G) : m.leave.Orderly G := by
  unfold Machine.leave
  split
  · rename_i host waiting hw
    refine ho.of_count (fun x => ?_) rfl (ho.waiting host (by simp [hw])) fun h hm =>
      ho.waiting h (by simp [hw, hm])
    simp only [held, hw, List.flatMap_cons, List.count_append]
    omega
  · exact ho

end Machine

/-- What happens while others hold some units: nothing is told about these, nor about the units of
hosts that wait, and the modules of these stay. -/
structure Framed (G : List UnitHandle) (m m' : Machine) : Prop where
  trace : ∃ es, m'.trace = m.trace ++ es ∧ ∀ e ∈ es, ∀ x, e.unit? = some x →
    x ∉ G ∧ x ∉ m.waiting.flatMap Host.held
  modules : ∀ x ∈ G, m'.host.modules.get? x = m.host.modules.get? x

namespace Framed

variable {G G' : List UnitHandle} {m m₁ m₂ m' : Machine}

theorem refl (G : List UnitHandle) (m : Machine) : Framed G m m :=
  ⟨⟨[], by simp, by simp⟩, fun _ _ => rfl⟩

theorem trans (ha : Around m m₁) (h : Framed G m m₁) (h' : Framed G m₁ m₂) : Framed G m m₂ := by
  obtain ⟨es, he, hes⟩ := h.trace
  obtain ⟨es', he', hes'⟩ := h'.trace
  refine ⟨⟨es ++ es', by rw [he', he, List.append_assoc], ?_⟩, ?_⟩
  · intro e hm x hx
    rcases List.mem_append.1 hm with hm | hm
    · exact hes e hm x hx
    · rw [← Machine.held_of_waited ha.waiting]
      exact hes' e hm x hx
  · intro x hx
    rw [h'.modules x hx, h.modules x hx]

theorem of_eq (ht : m'.trace = m.trace) (hm : m'.host.modules = m.host.modules) :
    Framed G m m' := ⟨⟨[], by simp [ht], by simp⟩, fun _ _ => by rw [hm]⟩

theorem mono (h : Framed G m m') (hG : ∀ x ∈ G', x ∈ G) : Framed G' m m' := by
  obtain ⟨es, he, hes⟩ := h.trace
  refine ⟨⟨es, he, fun e hm x hx => ?_⟩, fun x hx => h.modules x (hG x hx)⟩
  exact ⟨fun hx' => (hes e hm x hx).1 (hG x hx'), (hes e hm x hx).2⟩

/-- A program of its own does not touch the units of the host that waits for it. -/
theorem of_nested {p : Program} (ha : Around (m.enter p) m') (h : Framed G (m.enter p) m') :
    Framed (m.host.held ++ G) m m'.leave := by
  obtain ⟨es, he, hes⟩ := h.trace
  obtain ⟨hh, _⟩ := ha.waited_leave
  have htrace : m'.leave.trace = m'.trace := by
    unfold Machine.leave
    split <;> rfl
  refine ⟨⟨es, htrace.trans he, fun e hm x hx => ?_⟩, fun x _ => by rw [hh.modules_eq]⟩
  obtain ⟨hG, hw⟩ := hes e hm x hx
  simp only [Machine.enter, List.flatMap_cons, List.mem_append, not_or] at hw
  exact ⟨fun hx' => (List.mem_append.1 hx').elim hw.1 hG, hw.2⟩

end Framed

namespace Machine.Orderly

open Holding

variable {X : List Holding} {G : List UnitHandle} {m : Machine} {x : UnitHandle}

theorem declare (ho : m.Orderly G) :
    { m with nextHandle := m.nextHandle + 1 }.Orderly (m.nextHandle :: G) where
  distinct := by
    have hnew : m.nextHandle ∉ G ++ m.held := fun hm => Nat.lt_irrefl _ (ho.declared _ hm)
    exact List.nodup_cons.2 ⟨hnew, ho.distinct⟩
  declared y hy := by
    rcases List.mem_cons.1 hy with rfl | hy
    · exact Nat.lt_succ_self _
    · exact Nat.lt_succ_of_lt (ho.declared y hy)
  host := ho.host.later (Nat.le_succ _)
  waiting h hm := (ho.waiting h hm).later (Nat.le_succ _)

theorem modules {t : Keyed UnitHandle UnitModule} {f : Keyed UnitHandle Bool}
    (ho : m.Orderly (units X ++ G)) (hx : .unit x ∈ X)
    (ht : ∀ y, y ≠ x → t.get? y = m.host.modules.get? y)
    (hf : ∀ y, y ≠ x → f.get? y = m.host.loaded.get? y)
    (hfx : (f.get? x).getD false = (t.get? x).isSome) :
    (m.withHost { m.host with modules := t, loaded := f }).Orderly (units X ++ G) ∧
      Framed G m (m.withHost { m.host with modules := t, loaded := f }) := by
  have hX : x ∈ units X ++ G := List.mem_append_left _ (mem_units.2 hx)
  refine ⟨ho.of_count (fun _ => Nat.le_refl _) rfl ?_ ho.waiting, ⟨[], by simp [Machine.withHost],
    by simp⟩, fun y hy => ht y ?_⟩
  · exact ho.host.of_modules (ho.not_mem_host hX) (ho.lt_nextHandle hX) ht hf hfx
  · exact (ho.ne_of_mem (mem_units.2 hx) hy).symm

theorem bareUnit {option : UnitOption} {bare : Registry} (ho : m.Orderly (x :: G))
    (hn : m.host.modules.get? x = none) (hb : m.host.bare.register option x = .ok bare) :
    (m.withHost { m.host with bare }).Orderly G := by
  have hh := Registry.handles_register hb
  refine ho.of_count (fun y => ?_) rfl (ho.host.ofBare ?_ ?_ ?_) ho.waiting
  · simp only [held, Host.held, withHost, hh, List.count_append, List.cons_append, List.count_cons,
      List.count_nil]
    omega
  · intro e he
    rw [Registry.register_eq hb] at he
    obtain ⟨y, hy, hown⟩ := ho.host.bare e he
    exact ⟨y, by rw [hh]; exact List.mem_append_left _ hy, hown⟩
  · intro y hy
    rw [hh] at hy
    rcases List.mem_append.1 hy with hy | hy
    · exact ho.host.bareModules y hy
    · rw [List.mem_singleton.1 hy, hn]
  · intro y hy
    rw [hh]
    exact List.mem_append_left _ hy

end Machine.Orderly

open Holding in
/-- Moves keep order, and what others hold is framed. -/
theorem Moves.orderly {X Y : List Holding} {m m' : Machine} (h : Moves X m Y m')
    {G : List UnitHandle} (ho : m.Orderly (units X ++ G)) :
    m'.Orderly (units Y ++ G) ∧ Framed G m m' := by
  induction h generalizing G with
  | @perm X Y m hp =>
    refine ⟨ho.of_count (fun x => ?_) rfl ho.host ho.waiting, .refl G m⟩
    simp only [List.count_append, ((units_perm hp).count_eq x)]
    exact Nat.le_refl _
  | trans h₁ _ ih₁ ih₂ =>
    obtain ⟨ho₁, hf₁⟩ := ih₁ ho
    obtain ⟨ho₂, hf₂⟩ := ih₂ ho₁
    exact ⟨ho₂, hf₁.trans h₁.around hf₂⟩
  | @quiet X m h j stuck hq hs =>
    refine ⟨ho.of_same rfl ?_ rfl, .of_eq rfl ?_⟩
    · rw [hq.rest]
      exact { Host.Same.refl _ with serial := hq.serial }
    · rw [hq.rest]
  | @event X m e he =>
    refine ⟨ho.of_same rfl (.refl _) rfl, ⟨[e], rfl, ?_⟩, fun _ _ => rfl⟩
    intro e' hm x hx
    cases List.mem_singleton.1 hm
    have hX : x ∈ units X := mem_units.2 (he x hx)
    refine ⟨fun hG => ?_, fun hw => ?_⟩
    · exact ho.ne_of_mem hX hG rfl
    · exact ho.not_mem_held (List.mem_append_left _ hX) (List.mem_append_right _ hw)
  | @heap X m => exact ⟨ho.of_same rfl { Host.Same.refl m.host with } rfl, .of_eq rfl rfl⟩
  | @pin X m => exact ⟨ho.of_same rfl { Host.Same.refl m.host with } rfl, .of_eq rfl rfl⟩
  | @unpin X m => exact ⟨ho.of_same rfl { Host.Same.refl m.host with } rfl, .of_eq rfl rfl⟩
  | @name X m name g =>
    refine ⟨?_, .of_eq rfl rfl⟩
    simp only [units_append, units_ofGuards, List.nil_append]
    exact ho.of_same rfl { Host.Same.refl m.host with } rfl
  | @unname X m => exact ⟨ho.of_same rfl { Host.Same.refl m.host with } rfl, .of_eq rfl rfl⟩
  | @unnameAll X m =>
    refine ⟨?_, .of_eq rfl rfl⟩
    simp only [units_append, units_ofGuards, List.nil_append]
    exact ho.of_same rfl { Host.Same.refl m.host with } rfl
  | callback hc =>
    cases waited_of_answerInnermost hc with
    | cons hh hw => exact ⟨ho.of_waited rfl hh hw, .of_eq rfl hh.modules_eq⟩
  | @hook X Y m m' s _ ih =>
    obtain ⟨ho', hf⟩ := ih (ho.of_same rfl { Host.Same.refl m.host with } rfl)
    exact ⟨ho'.of_same rfl { Host.Same.refl m'.host with } rfl, hf.trace, hf.modules⟩
  | @nested X m m' p hn ih =>
    obtain ⟨ho', hf⟩ := ih (G := units X ++ G) (ho.enter p)
    exact ⟨ho'.leave, (hf.of_nested hn.around).mono fun _ hx =>
      List.mem_append_right _ (List.mem_append_right _ hx)⟩
  | declare => exact ⟨ho.declare, .of_eq rfl rfl⟩
  | attach hx =>
    exact ho.modules hx (fun y hy => Keyed.get?_set_of_ne (Ne.symm hy) _ _)
      (fun y hy => Keyed.get?_set_of_ne (Ne.symm hy) _ _) (by simp [Keyed.get?_set_self])
  | release hx =>
    exact ho.modules hx (fun y hy => Keyed.get?_erase_of_ne (Ne.symm hy) _)
      (fun y hy => Keyed.get?_set_of_ne (Ne.symm hy) _ _)
      (by simp [Keyed.get?_set_self, Keyed.get?_erase_self])
  | @suspend X m r hn hr =>
    refine ⟨ho.of_count (fun x => ?_) rfl ?_ ho.waiting, .of_eq rfl rfl⟩
    · simp only [Machine.held, Host.held, Machine.withHost, hn, Option.elim_some, Option.elim_none,
        units_append, units_ofUnits, List.count_append, List.count_nil]
      omega
    · exact ho.host.suspend fun r' hr' => by cases hr'; exact hr
  | @resume X m r hr =>
    refine ⟨ho.of_count (fun x => ?_) rfl ?_ ho.waiting, .of_eq rfl rfl⟩
    · simp only [Machine.held, Host.held, Machine.withHost, hr, Option.elim_some, Option.elim_none,
        units_append, units_ofUnits, List.count_append, List.count_nil]
      omega
    · exact ho.host.suspend fun r' hr' => by cases hr'
  | @install X m r hn hr =>
    refine ⟨ho.of_count (fun x => ?_) rfl (ho.host.serve hr) ho.waiting, .of_eq rfl rfl⟩
    simp only [Machine.held, Host.held, Machine.withHost, Host.serve, hn, Option.elim_some,
      Option.elim_none, units_append, units_ofUnits, List.count_append, List.count_nil]
    omega
  | @retire X m r hr =>
    refine ⟨ho.of_count (fun x => ?_) rfl ho.host.retire ho.waiting, .of_eq rfl rfl⟩
    simp only [Machine.held, Host.held, Machine.withHost, hr, Option.elim_some, Option.elim_none,
      units_append, units_ofUnits, List.count_append, List.count_nil]
    omega
  | @bareUnit X m x option bare hn hb =>
    exact ⟨ho.bareUnit hn hb, .of_eq rfl rfl⟩
  | @bareEntries X m bare hb =>
    have hh := hb.handles_eq
    refine ⟨ho.of_count (fun y => ?_) rfl (ho.host.ofBare ?_ ?_ ?_) ho.waiting, .of_eq rfl rfl⟩
    · simp only [Machine.held, Host.held, Machine.withHost, hh]
      exact Nat.le_refl _
    · exact ho.host.bare.of_extends hb
    · rw [hh]
      exact ho.host.bareModules
    · rw [hh]
      exact fun _ h => h
  | @expose X m published hp =>
    exact ⟨ho.of_count (fun x => Nat.le_refl _) rfl (ho.host.expose hp) ho.waiting, .of_eq rfl rfl⟩
  | @provide X m id answer hn =>
    exact ⟨ho.of_same rfl { Host.Same.refl m.host with
      provided := fun _ _ ha => Keyed.get?_set_of_none hn ha } rfl, .of_eq rfl rfl⟩
  | @cache X m s method e func hs he hl hf =>
    refine ⟨ho.of_count (fun x => ?_) rfl (ho.host.cache hs he hl hf) ho.waiting,
      .of_eq rfl Host.modules_modifyReplacements⟩
    rw [Machine.held, Machine.withHost, Host.held_modifyReplacements]
    exact Nat.le_refl _
  | @discard X m x =>
    have hx : m.Orderly ([x] ++ (units X ++ G)) := ho
    exact ⟨hx.forget, .refl G m⟩

end AccelHost
