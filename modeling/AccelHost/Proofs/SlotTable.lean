import AccelHost.Proofs.StaleReferences
import Mathlib.Data.List.Induction
import Mathlib.Order.Bounds.Basic

/-!
The table of slots. Exactly the slots without a cell are free, the last freed first, and a new cell
takes the first of them. So a slot is added only when all have cells, and there are as many slots as
there were cells at the time when there were most.
-/
namespace AccelHost.Heap

variable {h h' : Heap} {q : HeapRequest} {qs : List HeapRequest} {r : ObjRef} {c : Cell}
  {freed : List Nat} {i : Nat}

def cells (h : Heap) : List Cell := h.slots.filterMap (·.cell)

/-- The slots that some requests free, the last freed first. -/
def freedBy : Heap → List HeapRequest → List Nat
  | _, [] => []
  | h, q :: qs => freedBy (h.perform q).2 qs ++ (h.freed? q).toList

/-! ### Free slots -/

/-- What the free slots are after some slots were freed, the last freed first: the slots without a
cell, each told once, in the order in which they were last freed. -/
structure Recycles (h : Heap) (freed : List Nat) : Prop where
  mem_iff : ∀ i, i ∈ h.free ↔ i < h.slots.length ∧ h.cellAt i = none
  nodup : h.free.Nodup
  lt : ∀ i ∈ freed, i < h.slots.length
  subset : h.free ⊆ freed
  recent : h.free.Pairwise fun i j => freed.idxOf i < freed.idxOf j

namespace Recycles

theorem sound (hr : h.Recycles freed) : h.Sound := ⟨fun i => (hr.mem_iff i).1, hr.nodup⟩

theorem of_same (hr : h.Recycles freed) (hfree : h'.free = h.free)
    (hlen : h'.slots.length = h.slots.length)
    (hcell : ∀ j, h'.cellAt j = none ↔ h.cellAt j = none) : h'.Recycles freed := by
  refine ⟨fun j => ?_, hfree ▸ hr.nodup, hlen ▸ hr.lt, hfree ▸ hr.subset, hfree ▸ hr.recent⟩
  rw [hfree, hlen, hcell, hr.mem_iff]

theorem setCell {c' : Cell} (hr : h.Recycles freed) (hc : h.cellAt i = some c) :
    (h.setCell i (some c')).Recycles freed := by
  refine hr.of_same rfl (h.length_setCell i _) fun j => ?_
  rw [cellAt_setCell (lt_of_cellAt hc)]
  by_cases hj : j = i
  · simp [hj, hc]
  · simp [hj]

theorem move {base : Nat} (hr : h.Recycles freed) (hc : h.cellAt i = some c) :
    (h.move i c base).Recycles freed :=
  (hr.setCell hc).of_same rfl rfl fun _ => Iff.rfl

theorem insert (hr : h.Recycles freed) : (h.insert c).2.Recycles freed := by
  refine ⟨fun j => ?_, ?_, fun j hj => ?_, ?_, ?_⟩
  · rw [free_insert, cellAt_insert hr.sound, length_slots_insert, nextSlot]
    have hmem := hr.mem_iff j
    cases hf : h.free with
    | nil =>
      rw [hf] at hmem
      by_cases hj : j = h.slots.length
      · simp [hj]
      · have hlt : j < h.slots.length + 1 ↔ j < h.slots.length := by omega
        simpa [hj, hlt] using hmem
    | cons i rest =>
      have hi : i ∉ rest := (List.nodup_cons.1 (hf ▸ hr.nodup)).1
      rw [hf] at hmem
      by_cases hj : j = i
      · simp [hj, hi]
      · simpa [hj] using hmem
  · rw [free_insert]
    exact hr.nodup.sublist (List.tail_sublist _)
  · have hlt := hr.lt j hj
    rw [length_slots_insert]
    split <;> omega
  · rw [free_insert]
    exact fun j hj => hr.subset (List.mem_of_mem_tail hj)
  · rw [free_insert]
    exact hr.recent.sublist (List.tail_sublist _)

/-- A slot that is freed comes before all that were freed earlier. -/
theorem vacate {base : Nat} (hr : h.Recycles freed) (hc : h.cellAt i = some c) :
    (h.vacate i base).Recycles (i :: freed) := by
  have hi : i ∉ h.free := hr.sound.not_free hc
  have hlen : (h.vacate i base).slots.length = h.slots.length := List.length_modify ..
  have hlater : ∀ j ∈ h.free, (i :: freed).idxOf j = freed.idxOf j + 1 := fun j hj =>
    List.idxOf_cons_ne _ fun he => hi (he ▸ hj)
  refine ⟨fun j => ?_, List.nodup_cons.2 ⟨hi, hr.nodup⟩, ?_, List.cons_subset_cons i hr.subset,
    List.pairwise_cons.2 ⟨fun j hj => ?_, ?_⟩⟩
  · rw [cellAt_vacate, hlen, Heap.vacate, List.mem_cons, hr.mem_iff]
    by_cases hj : j = i
    · simp [hj, lt_of_cellAt hc]
    · simp [hj]
  · rw [hlen]
    exact List.forall_mem_cons.2 ⟨lt_of_cellAt hc, hr.lt⟩
  · rw [List.idxOf_cons_self, hlater j hj]
    exact Nat.succ_pos _
  · refine hr.recent.imp_of_mem fun hj hk hlt => ?_
    rw [hlater _ hj, hlater _ hk]
    exact Nat.succ_lt_succ hlt

theorem change {fits : Prop} {f : Option Nat} (hr : h.Recycles freed) (hc : h.Change fits f h') :
    h'.Recycles (f.toList ++ freed) := by
  cases hc with
  | same => exact hr
  | insert => exact hr.insert
  | free hc => exact hr.vacate (cell?_iff_cellAt.1 hc).2
  | replace hc _ =>
    exact (hr.setCell (cell?_iff_cellAt.1 hc).2).of_same rfl rfl fun _ => Iff.rfl
  | relocate =>
    exact relocate_induction (P := fun h => h.Recycles freed) hr fun h i c hr hc _ => hr.move hc

theorem run (hr : h.Recycles freed) (qs : List HeapRequest) :
    (h.run qs).2.Recycles (freedBy h qs ++ freed) := by
  induction qs generalizing h freed with
  | nil => exact hr
  | cons q qs ih =>
    have hrest := ih (hr.change (h.change_perform q))
    rw [← List.append_assoc] at hrest
    exact hrest

/-- The slot that is taken next is, of those without a cell, the last that was freed. -/
theorem head?_free (hr : h.Recycles freed) :
    freed.find? (fun i => (h.cellAt i).isNone) = h.free.head? := by
  have hvacant : ∀ i ∈ freed, (h.cellAt i).isNone = true ↔ i ∈ h.free := fun i hi => by
    rw [hr.mem_iff, Option.isNone_iff_eq_none, and_iff_right (hr.lt i hi)]
  cases hf : h.free with
  | nil =>
    refine List.find?_eq_none.2 fun i hi => ?_
    rw [hvacant i hi, hf]
    exact List.not_mem_nil
  | cons i rest =>
    have hi : i ∈ h.free := by simp [hf]
    cases hfound : freed.find? fun i => (h.cellAt i).isNone with
    | none =>
      have hnot := List.find?_eq_none.1 hfound i (hr.subset hi)
      exact absurd ((hvacant i (hr.subset hi)).2 hi) hnot
    | some k =>
      -- Another one that is found first would have been freed last.
      obtain ⟨hk, before, behind, rfl, hbefore⟩ := List.find?_eq_some_iff_append.1 hfound
      have hfirst : ∀ j ∈ h.free, j ∉ before := fun j hj hmem => by
        have hsome := hbefore j hmem
        rw [(hvacant j (hr.subset hj)).2 hj] at hsome
        cases hsome
      have hkfree : k ∈ h.free := (hvacant k (by simp)).1 hk
      rw [List.head?_cons, Option.some.injEq]
      rcases List.mem_cons.1 (hf ▸ hkfree) with hki | hki
      · exact hki
      · have hlt := (List.pairwise_cons.1 (hf ▸ hr.recent)).1 k hki
        rw [List.idxOf_append_of_notMem (hfirst i hi),
          List.idxOf_append_of_notMem (hfirst k hkfree), List.idxOf_cons_self] at hlt
        omega

theorem length_cells (hr : h.Recycles freed) :
    h.cells.length + h.free.length = h.slots.length := by
  let slots := List.range h.slots.length
  have hslots : slots.map h.cellAt = h.slots.map (·.cell) :=
    List.ext_getElem (by simp [slots]) fun i hi _ => by
      have hlt : i < h.slots.length := by simpa [slots] using hi
      simp [slots, cellAt, hlt]
  have hcells : h.cells.length = slots.countP fun i => (h.cellAt i).isSome := by
    rw [cells, List.length_filterMap_eq_countP]
    have hcount := congrArg (List.countP Option.isSome) hslots
    rw [List.countP_map, List.countP_map] at hcount
    exact hcount.symm
  have hperm : h.free.Perm (slots.filter fun i => decide ¬(h.cellAt i).isSome = true) := by
    refine (List.perm_ext_iff_of_nodup hr.nodup (List.nodup_range.filter _)).2 fun i => ?_
    simp [hr.mem_iff]
  have hsum := List.length_eq_countP_add_countP (fun i => (h.cellAt i).isSome) (l := slots)
  rw [hcells, hperm.length_eq, ← List.countP_eq_length_filter, ← hsum]
  exact List.length_range

end Recycles

theorem recycles_empty : Recycles {} [] := ⟨by simp, .nil, by simp, by simp, .nil⟩

/-! ### The number of slots -/

/-- A slot is added only when none is free, and none is given up. -/
theorem Change.length_slots {fits : Prop} {f : Option Nat} (hc : h.Change fits f h') :
    h'.slots.length = h.slots.length ∨
      h.free = [] ∧ h'.free = [] ∧ h'.slots.length = h.slots.length + 1 := by
  cases hc with
  | same => exact .inl rfl
  | insert =>
    rw [length_slots_insert, free_insert]
    by_cases hf : h.free = []
    · exact .inr ⟨hf, by rw [hf, List.tail_nil], by rw [if_pos hf]⟩
    · exact .inl (by rw [if_neg hf])
  | free hc => exact .inl (List.length_modify ..)
  | replace hc _ => exact .inl (h.length_setCell _ _)
  | @relocate place hr =>
    exact .inl <| relocate_induction (P := fun h' => h'.slots.length = h.slots.length) rfl
      fun h' i c hlen _ _ => (h'.length_setCell i _).trans hlen

/-- There are as many slots as there were cells at the time when there were most. -/
theorem isGreatest_length_slots (qs : List HeapRequest) :
    IsGreatest {n | ∃ before, before <+: qs ∧ ((Heap.run {} before).2).cells.length = n}
      ((Heap.run {} qs).2).slots.length := by
  -- From the last request on: what it adds, it adds to a table in which every slot has a cell.
  induction qs using List.reverseRecOn with
  | nil =>
    refine ⟨⟨[], List.prefix_rfl, rfl⟩, ?_⟩
    rintro n ⟨before, hbefore, rfl⟩
    rw [List.prefix_nil.1 hbefore]
    exact Nat.le_refl 0
  | append_singleton qs q ih =>
    obtain ⟨⟨before, hbefore, hreached⟩, hmost⟩ := ih
    have hcells := (recycles_empty.run (qs ++ [q])).length_cells
    have hrun : (Heap.run {} (qs ++ [q])).2 = ((Heap.run {} qs).2.perform q).2 :=
      run_append {} qs [q]
    have hstep := ((Heap.run {} qs).2.change_perform q).length_slots
    rw [← hrun] at hstep
    refine ⟨?_, ?_⟩
    · rcases hstep with hsame | ⟨-, hfree, -⟩
      · exact ⟨before, hbefore.trans (List.prefix_append qs [q]), hreached.trans hsame.symm⟩
      · rw [hfree, List.length_nil, Nat.add_zero] at hcells
        exact ⟨qs ++ [q], List.prefix_rfl, hcells⟩
    · rintro n ⟨earlier, hearlier, rfl⟩
      rcases List.prefix_concat_iff.1 hearlier with rfl | hearlier
      · exact Nat.le.intro hcells
      · have hle := hmost ⟨earlier, hearlier, rfl⟩
        rcases hstep with hsame | ⟨-, -, hadded⟩ <;> omega

/-- No slot is lost, and none is there twice. After any requests, the free slots are exactly those
without a cell, each told once, so that what the heap tells for its size is the number of its cells.
A new cell is put into the slot that was freed last of those without a cell; only if every slot has
a cell, one more is added. So there are as many slots as there were cells at the time when there
were most. A slot is told in 32 bits, which is enough for fewer than `2 ^ 32` of them. -/
theorem slot_table_exact (qs : List HeapRequest) :
    let h := (Heap.run {} qs).2
    (h.free.Nodup ∧ ∀ i, i ∈ h.free ↔ i < h.slots.length ∧ h.cellAt i = none) ∧
    (h.free.length ≤ h.slots.length ∧ h.size = h.cells.length ∧ (h.isEmpty ↔ h.cells = [])) ∧
    (∀ q r, (h.perform q).1 = .ok (.allocated r) →
      let h' := (h.perform q).2
      match (freedBy {} qs).find? fun i => (h.cellAt i).isNone with
      | some i => r.index = i ∧ h'.slots.length = h.slots.length
      | none => (∀ i < h.slots.length, (h.cellAt i).isSome) ∧
          r.index = h.slots.length ∧ h'.slots.length = h.slots.length + 1) ∧
    IsGreatest {n | ∃ before, before <+: qs ∧ ((Heap.run {} before).2).cells.length = n}
      h.slots.length := by
  intro h
  have hr : h.Recycles (freedBy {} qs) := by
    simpa using recycles_empty.run qs
  have hcells := hr.length_cells
  have hsize : h.size = h.cells.length := by
    rw [size]
    omega
  refine ⟨⟨hr.nodup, hr.mem_iff⟩, ⟨by omega, hsize, ?_⟩, fun q r hq => ?_,
    isGreatest_length_slots qs⟩
  · rw [isEmpty, hsize, beq_iff_eq, List.length_eq_zero_iff]
  · obtain ⟨c, rfl, hafter⟩ := insert_of_allocated hq
    dsimp only
    rw [hr.head?_free, hafter, length_slots_insert, insert_fst, nextSlot]
    cases hf : h.free with
    | nil =>
      refine ⟨fun i hi => ?_, rfl, rfl⟩
      have hfree : i ∉ h.free := by simp [hf]
      rw [hr.mem_iff, not_and] at hfree
      exact Option.isSome_iff_ne_none.2 (hfree hi)
    | cons i rest => exact ⟨rfl, rfl⟩

/-- Of two slots that were freed the last is taken first, and both before a third. -/
example : (Heap.run {} [.newArray .int 1 8, .newArray .int 1 16, .free ⟨0, 0⟩, .free ⟨1, 0⟩,
      .newArray .int 1 24, .newArray .int 1 32]).1.drop 4 =
    [.ok (.allocated ⟨1, 1⟩), .ok (.allocated ⟨0, 1⟩)] := by
  decide

end AccelHost.Heap
