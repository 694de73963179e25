import AccelHost.Proofs.Around
import AccelHost.Proofs.HeapMoves

/-!
Pins and guards tally: a cell is pinned once for each guard that is out for it, so long as no count
wrapped. A guard may be in hand or have a name. Nothing frees or moves a cell with a guard, so the
guard finds it where it was.
-/
namespace AccelHost

/-- The guards that are out keep their cells in place, and nothing else pins a cell. -/
structure Heap.Tallied (h : Heap) (gs : List Guard) : Prop where
  counted : ∀ r c, h.cell? r = some c → c.pins.toNat = (gs.map (·.ref)).count r
  held : ∀ g ∈ gs, ∃ c, h.cell? g.ref = some c ∧ c.base = g.base
  empty : ∀ i ∈ h.free, ∀ s, h.slots[i]? = some s → s.cell = none
  free : h.free.Nodup

namespace Heap

variable {h h' : Heap} {r r' : ObjRef} {c c' : Cell}

theorem cell?_eq_some_iff : h.cell? r = some c ↔
    ∃ s, h.slots[r.index]? = some s ∧ s.generation = r.generation ∧ s.cell = some c := by
  unfold cell?
  cases hs : h.slots[r.index]? with
  | none => simp
  | some s => by_cases hg : s.generation = r.generation <;> simp [hg]

theorem Tallied.not_free {gs : List Guard} (ht : h.Tallied gs) (hc : h.cell? r = some c) :
    r.index ∉ h.free := fun hf => by
  obtain ⟨s, hs, _, hcell⟩ := cell?_eq_some_iff.1 hc
  rw [ht.empty _ hf s hs] at hcell
  cases hcell

/-- The free slots are empty also after a live slot got another cell. -/
theorem Tallied.empty_setCell {gs : List Guard} (ht : h.Tallied gs) (hc : h.cell? r = some c) :
    ∀ i ∈ h.free, ∀ s, (h.setCell r.index (some c')).slots[i]? = some s → s.cell = none := by
  intro i hi s hs
  have hne : r.index ≠ i := fun he => ht.not_free hc (he ▸ hi)
  simp only [setCell, List.getElem?_modify, hne, ↓reduceIte, id_map'] at hs
  exact ht.empty i hi s hs

end Heap

namespace Heap.Tallied

variable {h h' : Heap} {r r' : ObjRef} {c c' : Cell} {g : Guard} {gs gs' : List Guard}

theorem perm (ht : h.Tallied gs) (hp : gs.Perm gs') : h.Tallied gs' where
  counted r c hc := by rw [ht.counted r c hc, (hp.map _).count_eq]
  held g hg := ht.held g (hp.mem_iff.2 hg)
  empty := ht.empty
  free := ht.free

theorem ref_ne (ht : h.Tallied gs) (hc : h.cell? r = some c) (hp : c.pins = 0) (hg : g ∈ gs) :
    g.ref ≠ r := by
  rintro rfl
  have hcount := ht.counted _ c hc
  have hpos : 0 < (gs.map (·.ref)).count g.ref :=
    List.count_pos_iff.2 (List.mem_map.2 ⟨g, hg, rfl⟩)
  rw [hp] at hcount
  simp only [UInt32.toNat_zero] at hcount
  omega

theorem setCell (ht : h.Tallied gs) (hc : h.cell? r = some c)
    (hcount : c'.pins.toNat = (gs'.map (·.ref)).count r)
    (hother : ∀ r', r' ≠ r → (gs'.map (·.ref)).count r' = (gs.map (·.ref)).count r')
    (hheld : ∀ g ∈ gs', g.ref = r ∧ g.base = c'.base ∨ g.ref ≠ r ∧ g ∈ gs) :
    (h.setCell r.index (some c')).Tallied gs' where
  counted r' d hd := by
    rw [cell?_setCell hc] at hd
    by_cases hr : r' = r
    · simp only [hr, ↓reduceIte, Option.some.injEq] at hd
      rw [hr, ← hd, hcount]
    · simp only [hr, ↓reduceIte] at hd
      rw [hother r' hr, ht.counted r' d hd]
  held g hg := by
    rw [cell?_setCell hc]
    rcases hheld g hg with ⟨hr, hb⟩ | ⟨hr, hg⟩
    · exact ⟨c', by simp [hr], hb.symm⟩
    · simpa [hr] using ht.held g hg
  empty := ht.empty_setCell hc
  free := ht.free

/-- A cell whose pins and address stay may get any content. -/
theorem replace (ht : h.Tallied gs) (hc : h.cell? r = some c) (hp : c'.pins = c.pins)
    (hb : ∀ g ∈ gs, g.ref = r → c'.base = c.base) : (h.setCell r.index (some c')).Tallied gs := by
  refine ht.setCell hc (by rw [hp, ht.counted r c hc]) (fun _ _ => rfl) fun g hg => ?_
  by_cases hr : g.ref = r
  · obtain ⟨d, hd, hbase⟩ := ht.held g hg
    rw [hr, hc, Option.some.injEq] at hd
    exact .inl ⟨hr, by rw [hb g hg hr, hd, hbase]⟩
  · exact .inr ⟨hr, hg⟩

theorem cell?_insert (ht : h.Tallied gs) (hc : h.cell? r = some c') :
    (h.insert c).2.cell? r = some c' := by
  unfold Heap.insert
  split
  · rename_i i rest hfree
    have hi : i ≠ r.index := fun he => ht.not_free hc (by simp [hfree, he])
    exact (h.cell?_setCell_of_ne _ hi).trans hc
  · obtain ⟨s, hs, hg, hcell⟩ := cell?_eq_some_iff.1 hc
    refine cell?_eq_some_iff.2 ⟨s, ?_, hg, hcell⟩
    obtain ⟨hlt, _⟩ := List.getElem?_eq_some_iff.1 hs
    rw [List.getElem?_append_left hlt, hs]

theorem of_cell?_insert (ht : h.Tallied gs) (hc : (h.insert c).2.cell? r = some c') :
    h.cell? r = some c' ∨ h.cell? r = none ∧ c' = c := by
  unfold Heap.insert at hc
  split at hc
  · rename_i i rest hfree
    by_cases hi : i = r.index
    · have hnone : h.cell? r = none := by
        cases hd : h.cell? r with
        | none => rfl
        | some d => exact absurd (by simp [hfree, hi]) (ht.not_free hd)
      obtain ⟨s, hs, _, hcell⟩ := cell?_eq_some_iff.1 hc
      simp only [Heap.setCell, List.getElem?_modify, hi, ↓reduceIte, Option.map_eq_map,
        Option.map_eq_some_iff] at hs
      obtain ⟨_, _, rfl⟩ := hs
      exact .inr ⟨hnone, (Option.some.inj hcell).symm⟩
    · exact .inl (by rw [← hc]; exact (h.cell?_setCell_of_ne _ hi).symm)
  · obtain ⟨s, hs, hg, hcell⟩ := cell?_eq_some_iff.1 hc
    simp only [List.getElem?_append, List.getElem?_singleton] at hs
    split at hs
    · exact .inl (cell?_eq_some_iff.2 ⟨s, hs, hg, hcell⟩)
    · rename_i hlen
      split at hs
      · cases hs
        have hnone : h.cell? r = none := by
          simp [Heap.cell?, List.getElem?_eq_none (Nat.le_of_not_lt hlen)]
        exact .inr ⟨hnone, (Option.some.inj hcell).symm⟩
      · cases hs

theorem insert (ht : h.Tallied gs) (hp : c.pins = 0) : (h.insert c).2.Tallied gs := by
  refine ⟨fun r d hd => ?_, fun g hg => ?_, ?_, ?_⟩
  · rcases ht.of_cell?_insert hd with hd | ⟨hnone, rfl⟩
    · exact ht.counted r d hd
    · rw [hp, UInt32.toNat_zero, eq_comm, List.count_eq_zero]
      rintro hr
      obtain ⟨g, hg, rfl⟩ := List.mem_map.1 hr
      obtain ⟨d', hd', _⟩ := ht.held g hg
      rw [hnone] at hd'
      cases hd'
  · obtain ⟨d, hd, hb⟩ := ht.held g hg
    exact ⟨d, ht.cell?_insert hd, hb⟩
  · unfold Heap.insert
    split
    · rename_i i rest hfree
      intro j hj s hs
      have hne : i ≠ j := by
        rintro rfl
        exact (List.nodup_cons.1 (hfree ▸ ht.free)).1 hj
      simp only [Heap.setCell, List.getElem?_modify, hne, ↓reduceIte, id_map'] at hs
      exact ht.empty j (by simp only [hfree, List.mem_cons]; exact .inr hj) s hs
    · rename_i hfree
      simp [hfree]
  · unfold Heap.insert
    split
    · rename_i i rest hfree
      exact (List.nodup_cons.1 (hfree ▸ ht.free)).2
    · exact ht.free

theorem freeCell (ht : h.Tallied gs) (hf : h.freeCell r = .ok h') : h'.Tallied gs := by
  obtain ⟨c, hc, hzero, rfl⟩ := freeCell_eq_ok_iff.1 hf
  refine ⟨fun r' d hd => ?_, fun g hg => ?_, fun i hi s hs => ?_, ?_⟩
  · rw [cell?_vacate hc] at hd
    split at hd
    · cases hd
    · exact ht.counted r' d hd
  · obtain ⟨d, hd, hb⟩ := ht.held g hg
    refine ⟨d, ?_, hb⟩
    rw [cell?_vacate hc, if_neg (ht.ref_ne hc hzero hg), hd]
  · by_cases hri : r.index = i
    · simp only [vacate, List.getElem?_modify, hri, ↓reduceIte, Option.map_eq_map,
        Option.map_eq_some_iff] at hs
      obtain ⟨_, _, rfl⟩ := hs
      rfl
    · simp only [vacate, List.getElem?_modify, hri, ↓reduceIte, id_map'] at hs
      exact ht.empty i ((List.mem_cons.1 hi).resolve_left (Ne.symm hri)) s hs
  · exact List.nodup_cons.2 ⟨ht.not_free hc, ht.free⟩

theorem of_slots (ht : h.Tallied gs) (hs : h'.slots = h.slots) (hf : h'.free = h.free) :
    h'.Tallied gs := by
  have hcell : ∀ r, h'.cell? r = h.cell? r := fun r => by rw [Heap.cell?, hs, Heap.cell?]
  refine ⟨fun r c hc => ht.counted r c (by rw [← hcell, hc]), fun g hg => ?_, ?_, ?_⟩
  · obtain ⟨c, hc, hb⟩ := ht.held g hg
    exact ⟨c, by rw [hcell, hc], hb⟩
  · rw [hs, hf]
    exact ht.empty
  · rw [hf]
    exact ht.free

theorem step (ht : h.Tallied gs) (hs : h.Step h') : h'.Tallied gs := by
  cases hs with
  | insert hp => exact ht.insert hp
  | free hf => exact ht.freeCell hf
  | write hw =>
    obtain ⟨r, c, b, hc, _, rfl⟩ := hw
    exact ht.replace hc rfl fun _ _ _ => rfl
  | @move i c base hm =>
    obtain ⟨hcell, hzero⟩ := movable?_eq_some_iff.1 hm
    have hc : h.cell? ⟨i, h.generationAt i⟩ = some c := cell?_iff_cellAt.2 ⟨rfl, hcell⟩
    have hset : (h.setCell i (some { c with base })).Tallied gs :=
      ht.replace hc rfl fun g hg hr => absurd hr (ht.ref_ne hc hzero hg)
    exact hset.of_slots rfl rfl

theorem pin (ht : h.Tallied gs) (hp : h.pin r = .ok (g, h')) (hw : h'.wrapped = false) :
    h'.Tallied (g :: gs) := by
  obtain ⟨c, hc, rfl, rfl⟩ := exists_of_pin hp
  simp only [addPin, Bool.or_eq_false_iff, beq_eq_false_iff_ne] at hw
  have hsucc : (c.pins + 1).toNat = c.pins.toNat + 1 := by
    have hne : (c.pins + 1).toNat ≠ 0 := fun h => hw.2 (UInt32.toNat_inj.1 h)
    have hlt := c.pins.toNat_lt
    rw [UInt32.toNat_add, UInt32.toNat_one] at hne ⊢
    omega
  have hset : (h.setCell r.index (some { c with pins := c.pins + 1 })).Tallied
      (⟨r, c.base, c.length⟩ :: gs) := by
    refine ht.setCell hc ?_ (fun r' hr => ?_) fun g hg => ?_
    · simp [hsucc, ht.counted r c hc]
    · simp [Ne.symm hr]
    · rcases List.mem_cons.1 hg with rfl | hg
      · exact .inl ⟨rfl, rfl⟩
      · by_cases hr : g.ref = r
        · obtain ⟨d, hd, hb⟩ := ht.held g hg
          rw [hr, hc, Option.some.injEq] at hd
          exact .inl ⟨hr, by rw [hd, hb]⟩
        · exact .inr ⟨hr, hg⟩
  exact hset.of_slots rfl rfl

theorem unpin (ht : h.Tallied (g :: gs)) : (h.unpin g).Tallied gs := by
  obtain ⟨c, hc, _⟩ := ht.held g (by simp)
  have hcount := ht.counted _ c hc
  simp only [List.map_cons, List.count_cons_self] at hcount
  have hne : c.pins ≠ 0 := by
    rintro h
    rw [h, UInt32.toNat_zero] at hcount
    omega
  have hpred : (c.pins - 1).toNat = c.pins.toNat - 1 := by
    have hle : 1 ≤ c.pins := by
      rw [UInt32.le_iff_toNat_le, UInt32.toNat_one]
      omega
    rw [UInt32.toNat_sub_of_le _ _ hle, UInt32.toNat_one]
  simp only [Heap.unpin, hc, hne, ↓reduceIte]
  refine ht.setCell hc ?_ (fun r' hr => ?_) fun g' hg => ?_
  · rw [hpred, hcount, Nat.add_sub_cancel]
  · simp [Ne.symm hr]
  · by_cases hr : g'.ref = g.ref
    · obtain ⟨d, hd, hb⟩ := ht.held g' (List.mem_cons_of_mem _ hg)
      rw [hr, hc, Option.some.injEq] at hd
      exact .inl ⟨hr, by rw [hd, hb]⟩
    · exact .inr ⟨hr, List.mem_cons_of_mem _ hg⟩

end Heap.Tallied

/-- What a cell keeps for as long as it lives: its kind, its length and the size of its block. -/
def Cell.shape (c : Cell) : ObjectKind × Nat × Nat := (c.kind, c.length, c.block.words)

namespace Heap

variable {h h' : Heap} {r r' : ObjRef} {c c' : Cell}

theorem shape_setCell (hc : h.cell? r = some c) (hs : c'.shape = c.shape) :
    ((h.setCell r.index (some c')).cell? r').map Cell.shape = (h.cell? r').map Cell.shape := by
  rw [cell?_setCell hc]
  by_cases hr : r' = r
  · simp [hr, hc, hs]
  · simp [hr]

theorem shape_unpin (g : Guard) :
    ((h.unpin g).cell? r).map Cell.shape = (h.cell? r).map Cell.shape := by
  unfold Heap.unpin
  cases hc : h.cell? g.ref with
  | none => rfl
  | some c => exact shape_setCell hc rfl

/-- A cell with a guard keeps its shape. -/
theorem Tallied.shape_step {gs : List Guard} {g : Guard} (ht : h.Tallied gs) (hg : g ∈ gs)
    (hs : h.Step h') : (h'.cell? g.ref).map Cell.shape = (h.cell? g.ref).map Cell.shape := by
  cases hs with
  | insert =>
    obtain ⟨c, hc, _⟩ := ht.held g hg
    rw [ht.cell?_insert hc, hc]
  | free hf =>
    obtain ⟨c, hc, hzero, rfl⟩ := freeCell_eq_ok_iff.1 hf
    rw [cell?_vacate hc, if_neg (ht.ref_ne hc hzero hg)]
  | write hw =>
    obtain ⟨r, c, b, hc, hb, rfl⟩ := hw
    exact shape_setCell hc (by rw [Cell.shape, hb, Cell.shape])
  | @move i c base hm =>
    have hcell := (movable?_eq_some_iff.1 hm).1
    have hc : h.cell? ⟨i, h.generationAt i⟩ = some c := cell?_iff_cellAt.2 ⟨rfl, hcell⟩
    show ((h.setCell i (some { c with base })).cell? g.ref).map Cell.shape = _
    exact shape_setCell hc rfl

theorem Step.wrapped_eq (hs : h.Step h') : h'.wrapped = h.wrapped := by
  cases hs with
  | insert =>
    unfold Heap.insert
    split <;> rfl
  | free hf =>
    obtain ⟨_, _, _, rfl⟩ := freeCell_eq_ok_iff.1 hf
    rfl
  | write hw =>
    obtain ⟨_, _, _, _, _, rfl⟩ := hw
    rfl
  | move => rfl

/-- A count that wrapped is never forgotten. -/
theorem wrapped_of_pin {g : Guard} (hp : h.pin r = .ok (g, h'))
    (hw : h'.wrapped = false) : h.wrapped = false := by
  obtain ⟨c, _, _, rfl⟩ := exists_of_pin hp
  exact (Bool.or_eq_false_iff.1 hw).1

theorem wrapped_unpin (g : Guard) : (h.unpin g).wrapped = h.wrapped := by
  unfold Heap.unpin
  split <;> rfl

end Heap

/-! ### Guards of a host -/

namespace Keyed

variable {κ ν : Type} [DecidableEq κ]

theorem perm_set (k : κ) (v : ν) (t : Keyed κ ν) :
    ((t.get? k).toList ++ (t.set k v).map (·.2)).Perm (v :: t.map (·.2)) := by
  induction t with
  | nil => simp [set, get?]
  | cons e rest ih =>
    obtain ⟨a, w⟩ := e
    by_cases ha : a = k
    · simpa [set, get?, ha] using List.Perm.swap v w _
    · simp only [set, get?, ha, ↓reduceIte, List.map_cons]
      exact List.perm_middle.trans ((ih.cons w).trans (.swap v w _))

theorem perm_erase {k : κ} {v : ν} {t : Keyed κ ν} (hn : t.keys.Nodup) (h : t.get? k = some v) :
    (v :: (t.erase k).map (·.2)).Perm (t.map (·.2)) := by
  induction t with
  | nil => cases h
  | cons e rest ih =>
    obtain ⟨a, w⟩ := e
    obtain ⟨hnot, hn⟩ := List.nodup_cons.1 hn
    by_cases ha : a = k
    · subst ha
      simp only [get?, ↓reduceIte, Option.some.injEq] at h
      have he : Keyed.erase a rest = rest := by
        refine List.filter_eq_self.2 fun p hp => ?_
        simpa using fun he => hnot (List.mem_map.2 ⟨p, hp, he⟩)
      have hcons : Keyed.erase a ((a, w) :: rest) = rest := by
        rw [← he]
        simp [Keyed.erase]
      rw [hcons, h, List.map_cons]
    · simp only [get?, ha, ↓reduceIte] at h
      have := (ih hn h).cons w
      simpa [Keyed.erase, ha] using (List.Perm.swap w v _).trans this

end Keyed

namespace Host

def named (h : Host) : List Guard := h.guards.map (·.2)

/-- The guards with names, and others, tally with the pins of the heap. -/
structure Tallied (h : Host) (gs : List Guard) : Prop where
  heap : h.heap.Tallied (gs ++ h.named)
  labels : h.guards.keys.Nodup

theorem tallied_ofProgram (p : Program) : (ofProgram p).Tallied [] where
  heap := by
    refine ⟨fun r c hc => ?_, fun g hg => (by cases hg), fun i hi => (by cases hi), List.nodup_nil⟩
    simp [ofProgram, Heap.cell?] at hc
  labels := List.nodup_nil

theorem Tallied.of_eq {h h' : Host} {gs : List Guard} (ht : h.Tallied gs) (hh : h'.heap = h.heap)
    (hg : h'.guards = h.guards) : h'.Tallied gs :=
  ⟨by rw [hh, named, hg]; exact ht.heap, by rw [hg]; exact ht.labels⟩

end Host

open Holding

/-- A count that wrapped is never forgotten, and programs within hooks have their own. -/
theorem Moves.wrapped {X Y : List Holding} {m m' : Machine} (h : Moves X m Y m')
    (hw : m'.host.heap.wrapped = false) : m.host.heap.wrapped = false := by
  induction h with
  | trans _ _ ih₁ ih₂ => exact ih₁ (ih₂ hw)
  | quiet hq _ => rwa [hq.rest] at hw
  | heap hs => rwa [Machine.withHost, hs.step.wrapped_eq] at hw
  | pin hp => exact Heap.wrapped_of_pin hp hw
  | unpin => rwa [Machine.withHost, Heap.wrapped_unpin] at hw
  | callback hc =>
    cases waited_of_answerInnermost hc with
    | cons hh _ => rwa [hh.heap_eq] at hw
  | hook _ ih => exact ih hw
  | nested hn _ => rwa [hn.around.waited_leave.1.heap_eq] at hw
  | @cache X m =>
    obtain ⟨r, b, he⟩ := m.host.modifyReplacements_eq _
    rwa [Machine.withHost, he] at hw
  | _ => exact hw

theorem Moves.tallied {X Y : List Holding} {m m' : Machine} (h : Moves X m Y m') {F : List Guard}
    (hw : m'.host.heap.wrapped = false) (ht : m.host.Tallied (guards X ++ F)) :
    m'.host.Tallied (guards Y ++ F) := by
  induction h with
  | perm hp => exact ⟨ht.heap.perm (((guards_perm hp).append_right F).append_right _), ht.labels⟩
  | trans _ h₂ ih₁ ih₂ => exact ih₂ hw (ih₁ (h₂.wrapped hw) ht)
  | quiet hq _ =>
    rw [hq.rest]
    exact ⟨ht.heap, ht.labels⟩
  | heap hs => exact ⟨ht.heap.step hs.step, ht.labels⟩
  | pin hp => exact ⟨ht.heap.pin hp hw, ht.labels⟩
  | unpin => exact ⟨ht.heap.unpin, ht.labels⟩
  | @name X m l g =>
    refine ⟨ht.heap.perm (List.perm_iff_count.2 fun a => ?_), Keyed.nodup_keys_set ht.labels⟩
    have hperm := List.perm_iff_count.1 (Keyed.perm_set l g m.host.guards) a
    simp only [guards_cons_guard, guards_append, guards_ofGuards, Host.named, Machine.withHost,
      List.count_append, List.count_cons] at hperm ⊢
    omega
  | @unname X m l g hg =>
    refine ⟨ht.heap.perm (List.perm_iff_count.2 fun a => ?_), Keyed.nodup_keys_erase ht.labels⟩
    have hperm := List.perm_iff_count.1 (Keyed.perm_erase ht.labels hg) a
    simp only [guards_cons_guard, Host.named, Machine.withHost, List.count_append,
      List.count_cons] at hperm ⊢
    omega
  | unnameAll =>
    refine ⟨ht.heap.perm (List.perm_iff_count.2 fun a => ?_), List.nodup_nil⟩
    simp only [guards_append, guards_ofGuards, Host.named, Machine.withHost, List.count_append,
      List.map_nil, List.count_nil]
    omega
  | callback hc =>
    cases waited_of_answerInnermost hc with
    | cons hh _ => exact ht.of_eq hh.heap_eq hh.guards_eq
  | hook _ ih =>
    have ht' := ih hw ⟨ht.heap, ht.labels⟩
    exact ⟨ht'.heap, ht'.labels⟩
  | nested hn _ =>
    have hh := hn.around.waited_leave.1
    exact ht.of_eq hh.heap_eq hh.guards_eq
  | @cache X m =>
    obtain ⟨r, b, he⟩ := m.host.modifyReplacements_eq _
    rw [Machine.withHost, he]
    exact ⟨ht.heap, ht.labels⟩
  | suspend | install =>
    rw [guards_append, guards_ofUnits, List.nil_append] at ht
    exact ⟨ht.heap, ht.labels⟩
  | resume | retire =>
    rw [guards_append, guards_ofUnits, List.nil_append]
    exact ⟨ht.heap, ht.labels⟩
  | _ => exact ⟨ht.heap, ht.labels⟩

theorem Moves.shape_of_guard {X Y : List Holding} {m m' : Machine} (h : Moves X m Y m')
    {F : List Guard} {g : Guard} (hg : g ∈ F) (hw : m'.host.heap.wrapped = false)
    (ht : m.host.Tallied (guards X ++ F)) :
    (m'.host.heap.cell? g.ref).map Cell.shape = (m.host.heap.cell? g.ref).map Cell.shape := by
  induction h with
  | trans h₁ h₂ ih₁ ih₂ =>
    have hw₁ := h₂.wrapped hw
    rw [ih₂ hw (h₁.tallied hw₁ ht), ih₁ hw₁ ht]
  | quiet hq _ => rw [hq.rest]
  | heap hs => exact ht.heap.shape_step (by simp [hg]) hs.step
  | pin hp =>
    obtain ⟨c, hc, _, rfl⟩ := Heap.exists_of_pin hp
    exact Heap.shape_setCell hc rfl
  | @unpin X m g' => exact Heap.shape_unpin g'
  | callback hc =>
    cases waited_of_answerInnermost hc with
    | cons hh _ => rw [hh.heap_eq]
  | hook _ ih => exact ih hw ⟨ht.heap, ht.labels⟩
  | nested hn _ => rw [hn.around.waited_leave.1.heap_eq]
  | @cache X m =>
    obtain ⟨r, b, he⟩ := m.host.modifyReplacements_eq _
    rw [Machine.withHost, he]
  | _ => rfl

end AccelHost
