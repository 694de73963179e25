import AccelHost.Heap.Allocator

/-!
What the slots of a heap hold. A slot has a generation, and a cell unless it is free. Every
operation on a heap is told here by what it does to the two of each slot.
-/
namespace AccelHost

theorem exists_of_map_eq_ok {ε α β : Type} {x : Except ε α} {f : α → β} {b : β}
    (h : x.map f = .ok b) : ∃ a, x = .ok a ∧ f a = b := by
  cases x with
  | error e => cases h
  | ok a => exact ⟨a, rfl, by simpa [Except.map] using h⟩

theorem exists_of_bind_eq_ok {ε α β : Type} {x : Except ε α} {f : α → Except ε β} {b : β}
    (h : x.bind f = .ok b) : ∃ a, x = .ok a ∧ f a = .ok b := by
  cases x with
  | error e => cases h
  | ok a => exact ⟨a, rfl, h⟩

theorem ObjRef.eq_of_parts {r r' : ObjRef} (hi : r.index = r'.index)
    (hg : r.generation = r'.generation) : r = r' := by
  cases r
  cases r'
  cases hi
  cases hg
  rfl

namespace Heap

variable {h h' : Heap} {r : ObjRef} {c : Cell} {i j : Nat}

def cellAt (h : Heap) (i : Nat) : Option Cell := h.slots[i]?.bind (·.cell)

/-- The generation of a slot. A slot that is not there yet will begin with the first. -/
def generationAt (h : Heap) (i : Nat) : UInt32 := (h.slots[i]?.map (·.generation)).getD 0

theorem lt_of_cellAt (hc : h.cellAt i = some c) : i < h.slots.length := by
  obtain ⟨s, hs, _⟩ := Option.bind_eq_some_iff.1 hc
  exact (List.getElem?_eq_some_iff.1 hs).1

theorem cell?_eq : h.cell? r =
    if h.generationAt r.index = r.generation then h.cellAt r.index else none := by
  unfold cell? generationAt cellAt
  cases h.slots[r.index]? <;> simp

theorem cell?_iff_cellAt : h.cell? r = some c ↔
    h.generationAt r.index = r.generation ∧ h.cellAt r.index = some c := by
  rw [cell?_eq]
  split <;> simp_all

/-- References tell their slot in 32 bits, which is enough while there are no more slots. -/
theorem index_lt_of_cell? (hfew : h.slots.length ≤ UInt32.size) (hc : h.cell? r = some c) :
    r.index < UInt32.size :=
  Nat.lt_of_lt_of_le (lt_of_cellAt (cell?_iff_cellAt.1 hc).2) hfew

theorem eq_of_cell? {r' : ObjRef} {c' : Cell} (hc : h.cell? r = some c)
    (hc' : h.cell? r' = some c') (hi : r.index = r'.index) : r = r' := by
  have hg := (cell?_iff_cellAt.1 hc).1
  have hg' := (cell?_iff_cellAt.1 hc').1
  exact ObjRef.eq_of_parts hi (by rw [← hg, ← hg', hi])

/-- What is known of every cell is still known when one slot holds something else of which it is
known, or nothing. -/
theorem forall_cells_of_put {P : Cell → Prop} {o : Option Cell}
    (hcell : ∀ j, h'.cellAt j = if j = i then o else h.cellAt j) (ho : ∀ c, o = some c → P c)
    (hP : ∀ j c, h.cellAt j = some c → P c) : ∀ j c, h'.cellAt j = some c → P c := by
  intro j c hc
  rw [hcell] at hc
  split at hc
  · exact ho c hc
  · exact hP j c hc

/-- Where one slot holds something else, the reference that is live there finds it, and all others
find what they did. -/
theorem cell?_of_cellAt {r' : ObjRef} {o : Option Cell}
    (hg : h.generationAt r.index = r.generation)
    (hgen : ∀ j, h'.generationAt j = h.generationAt j)
    (hcell : ∀ j, h'.cellAt j = if j = r.index then o else h.cellAt j) :
    h'.cell? r' = if r' = r then o else h.cell? r' := by
  rw [cell?_eq, hgen, hcell, cell?_eq]
  by_cases hr : r' = r
  · subst hr
    simp [hg]
  · by_cases hi : r'.index = r.index
    · have hne : ¬h.generationAt r'.index = r'.generation := fun hg' =>
        hr (ObjRef.eq_of_parts hi (by rw [← hg', hi, hg]))
      simp [hr, hne]
    · simp [hr, hi]

theorem movable?_eq_some_iff : h.movable? i = some c ↔ h.cellAt i = some c ∧ c.pins = 0 := by
  unfold movable? cellAt
  cases h.slots[i]? <;> simp [Option.filter_eq_some_iff]

/-! ### A cell is changed -/

theorem get_of_none (hc : h.cell? r = none) : h.get r = .error (.invalidReference r) := by
  simp [get, hc]

theorem get_of_some (hc : h.cell? r = some c) : h.get r = .ok c := h.get_eq_ok_iff.2 hc

theorem pin_of_none (hc : h.cell? r = none) : h.pin r = .error (.invalidReference r) := by
  rw [pin, get_of_none hc, Except.map]

def addPin (h : Heap) (r : ObjRef) (c : Cell) : Heap :=
  { h.setCell r.index (some { c with pins := c.pins + 1 }) with
    wrapped := h.wrapped || c.pins + 1 == 0 }

theorem pin_of_some (hc : h.cell? r = some c) :
    h.pin r = .ok (⟨r, c.base, c.length⟩, h.addPin r c) := by
  rw [pin, get_of_some hc, Except.map, addPin]

theorem exists_of_pin {g : Guard} (hp : h.pin r = .ok (g, h')) :
    ∃ c, h.cell? r = some c ∧ g = ⟨r, c.base, c.length⟩ ∧ h' = h.addPin r c := by
  cases hc : h.cell? r with
  | none =>
    rw [pin_of_none hc] at hp
    cases hp
  | some c =>
    rw [pin_of_some hc] at hp
    cases hp
    exact ⟨c, rfl, rfl, rfl⟩

theorem readArray_eq_ok_iff {k : ElemKind} {values : List k.Val} :
    h.readArray k r = .ok values ↔ ∃ c, h.cell? r = some c ∧ c.kind = .array k ∧
      values = c.block.elements k c.length := by
  unfold readArray arrayCell get
  cases h.cell? r with
  | none => simp [Except.map]
  | some c => by_cases hk : c.kind = .array k <;> simp [hk, Except.map, eq_comm]

theorem readField_eq_ok_iff {index : Nat} {value : Int64} :
    h.readField r index = .ok value ↔ ∃ c className, h.cell? r = some c ∧
      c.kind = .ofClass className ∧ index < c.length ∧ value = c.block.element .long index := by
  unfold readField fieldCell get
  cases h.cell? r with
  | none => simp [Except.map]
  | some c =>
    cases hk : c.kind with
    | array k => simp [hk, Except.map]
    | ofClass className =>
      by_cases hi : index < c.length
      · simp [hk, hi, Except.map, eq_comm]
      · simp [hk, hi, Except.map]

theorem writeArray_eq_ok_iff {k : ElemKind} {values : List k.Val} :
    h.writeArray k r values = .ok h' ↔ ∃ c, h.cell? r = some c ∧ c.kind = .array k ∧
      values.length ≤ c.length ∧ h' = h.setBlock r c (c.block.overwrite k values) := by
  unfold writeArray arrayCell get
  cases h.cell? r with
  | none => simp
  | some c =>
    by_cases hk : c.kind = .array k
    · by_cases hl : c.length < values.length
      · simp [hk, hl, Nat.not_le.2 hl]
      · simp [hk, hl, Nat.not_lt.1 hl, eq_comm]
    · simp [hk]

theorem writeField_eq_ok_iff {index : Nat} {value : Int64} :
    h.writeField r index value = .ok h' ↔ ∃ c className, h.cell? r = some c ∧
      c.kind = .ofClass className ∧ index < c.length ∧
      h' = h.setBlock r c (c.block.store (8 * index) 8 value.toUInt64) := by
  unfold writeField fieldCell get
  cases h.cell? r with
  | none => simp [Except.map]
  | some c =>
    cases hk : c.kind with
    | array k => simp [hk, Except.map]
    | ofClass className =>
      by_cases hi : index < c.length
      · simp [hk, hi, Except.map, eq_comm]
      · simp [hk, hi, Except.map]

theorem exists_of_store? {address width : Nat} {w : UInt64}
    (hs : h.store? address width w = some h') :
    ∃ r c offset, h.cell? r = some c ∧ h' = h.setBlock r c (c.block.store offset width w) := by
  obtain ⟨⟨r, c, offset⟩, ha, rfl⟩ := Option.map_eq_some_iff.1 hs
  unfold atAddress? at ha
  split at ha
  · cases ha
  · split at ha
    · rename_i hc
      split at ha
      · cases ha
        exact ⟨r, c, _, hc, rfl⟩
      · cases ha
    · cases ha

theorem cellAt_setCell {o : Option Cell} (hi : i < h.slots.length) :
    (h.setCell i o).cellAt j = if j = i then o else h.cellAt j := by
  unfold cellAt setCell
  by_cases hj : j = i
  · simp [hj, hi]
  · simp [hj, Ne.symm hj]

@[simp] theorem generationAt_setCell {o : Option Cell} :
    (h.setCell i o).generationAt j = h.generationAt j := by
  unfold generationAt setCell
  by_cases hj : i = j
  · cases hs : h.slots[j]? <;> simp [hj, hs]
  · simp [hj]

/-- Another cell in a live slot is found by the same reference, and all others by theirs. -/
theorem cell?_setCell {r' : ObjRef} {c' : Cell} (hc : h.cell? r = some c) :
    (h.setCell r.index (some c')).cell? r' = if r' = r then some c' else h.cell? r' := by
  obtain ⟨hg, hcell⟩ := cell?_iff_cellAt.1 hc
  exact cell?_of_cellAt hg (fun _ => generationAt_setCell) fun _ =>
    cellAt_setCell (lt_of_cellAt hcell)

theorem cell?_addPin {r' : ObjRef} (hc : h.cell? r = some c) : (h.addPin r c).cell? r' =
    if r' = r then some { c with pins := c.pins + 1 } else h.cell? r' :=
  cell?_setCell hc

theorem cellAt_move {base : Nat} (hc : h.cellAt i = some c) :
    (h.move i c base).cellAt j = if j = i then some { c with base } else h.cellAt j :=
  cellAt_setCell (lt_of_cellAt hc)

@[simp] theorem generationAt_move {base : Nat} :
    (h.move i c base).generationAt j = h.generationAt j :=
  generationAt_setCell

/-! ### A cell is added -/

def nextSlot (h : Heap) : Nat := h.free.headD h.slots.length

/-- Free slots are there, are empty, and are told once. -/
structure Sound (h : Heap) : Prop where
  empty : ∀ i ∈ h.free, i < h.slots.length ∧ h.cellAt i = none
  nodup : h.free.Nodup

theorem Sound.cellAt_nextSlot (hs : h.Sound) : h.cellAt h.nextSlot = none := by
  unfold nextSlot
  cases hf : h.free with
  | nil => simp [cellAt]
  | cons i rest => exact (hs.empty i (by simp [hf])).2

/-- A new cell is told by its slot, in the generation that the slot has reached. -/
theorem insert_fst : (h.insert c).1 = ⟨h.nextSlot, h.generationAt h.nextSlot⟩ := by
  unfold insert nextSlot generationAt
  cases h.free <;> simp

theorem cellAt_insert (hs : h.Sound) :
    (h.insert c).2.cellAt j = if j = h.nextSlot then some c else h.cellAt j := by
  unfold insert nextSlot
  cases hf : h.free with
  | nil =>
    simp only [cellAt, List.headD_nil]
    rcases Nat.lt_trichotomy j h.slots.length with hj | rfl | hj
    · simp [List.getElem?_append_left hj, Nat.ne_of_lt hj]
    · simp
    · rw [List.getElem?_eq_none (by simp; omega), List.getElem?_eq_none (by omega)]
      simp [Nat.ne_of_gt hj]
  | cons i rest => exact cellAt_setCell (hs.empty i (by simp [hf])).1

@[simp] theorem generationAt_insert : (h.insert c).2.generationAt j = h.generationAt j := by
  unfold insert
  cases h.free with
  | nil =>
    simp only [generationAt]
    rcases Nat.lt_trichotomy j h.slots.length with hj | rfl | hj
    · simp [List.getElem?_append_left hj]
    · simp
    · rw [List.getElem?_eq_none (by simp; omega), List.getElem?_eq_none (by omega)]
  | cons i rest => exact generationAt_setCell

theorem cell?_insert {r' : ObjRef} (hs : h.Sound) :
    (h.insert c).2.cell? r' = if r' = (h.insert c).1 then some c else h.cell? r' := by
  rw [insert_fst]
  exact cell?_of_cellAt rfl (fun _ => generationAt_insert) fun _ => cellAt_insert hs

theorem starts_insert : (h.insert c).2.starts = h.starts.set c.base h.nextSlot := by
  unfold insert nextSlot
  cases h.free <;> rfl

theorem free_insert : (h.insert c).2.free = h.free.tail := by
  unfold insert
  cases h.free <;> rfl

theorem length_slots_insert : (h.insert c).2.slots.length =
    if h.free = [] then h.slots.length + 1 else h.slots.length := by
  unfold insert
  cases h.free <;> simp

/-! ### A cell is released -/

/-- Takes the cell out of a slot, whose next cell is of another generation. -/
def vacate (h : Heap) (i base : Nat) : Heap :=
  { h with
    slots := h.slots.modify i fun s => ⟨s.generation + 1, none⟩
    free := i :: h.free
    starts := h.starts.erase base }

theorem freeCell_eq_ok_iff : h.freeCell r = .ok h' ↔
    ∃ c, h.cell? r = some c ∧ c.pins = 0 ∧ h' = h.vacate r.index c.base := by
  unfold freeCell get vacate
  cases h.cell? r with
  | none => simp
  | some c =>
    by_cases hp : c.pins = 0
    · simp [hp, eq_comm]
    · simp [hp, UInt32.pos_iff_ne_zero]

theorem cellAt_vacate {base : Nat} :
    (h.vacate i base).cellAt j = if j = i then none else h.cellAt j := by
  unfold cellAt vacate
  by_cases hj : i = j
  · cases hs : h.slots[j]? <;> simp [hj, hs]
  · simp [hj, Ne.symm hj]

theorem generationAt_vacate {base : Nat} (hi : i < h.slots.length) :
    (h.vacate i base).generationAt j = h.generationAt j + if j = i then 1 else 0 := by
  unfold generationAt vacate
  by_cases hj : i = j
  · subst hj
    simp [hi]
  · simp [hj, Ne.symm hj]

theorem cell?_vacate {r' : ObjRef} {base : Nat} (hc : h.cell? r = some c) :
    (h.vacate r.index base).cell? r' = if r' = r then none else h.cell? r' := by
  rw [cell?_eq, cellAt_vacate]
  by_cases hi : r'.index = r.index
  · have hnone : (if r' = r then none else h.cell? r') = none := by
      by_cases hr : r' = r
      · simp [hr]
      · cases hc' : h.cell? r' with
        | none => simp
        | some c' => exact absurd (eq_of_cell? hc' hc hi) hr
    simp [hi, hnone]
  · have hr : r' ≠ r := fun hr => hi (congrArg ObjRef.index hr)
    have hlt := lt_of_cellAt (cell?_iff_cellAt.1 hc).2
    rw [generationAt_vacate hlt, if_neg hi, if_neg hi, if_neg hr, cell?_eq, UInt32.add_zero]

/-! ### What free slots are stays so -/

namespace Sound

theorem not_free (hs : h.Sound) (hc : h.cellAt i = some c) : i ∉ h.free := fun hf => by
  rw [(hs.empty i hf).2] at hc
  cases hc

theorem setCell {c' : Cell} (hs : h.Sound) (hc : h.cellAt i = some c) :
    (h.setCell i (some c')).Sound := by
  refine ⟨fun j hj => ⟨?_, ?_⟩, hs.nodup⟩
  · simpa using (hs.empty j hj).1
  · have hne : j ≠ i := by
      rintro rfl
      exact hs.not_free hc hj
    rw [cellAt_setCell (lt_of_cellAt hc), if_neg hne]
    exact (hs.empty j hj).2

theorem move {base : Nat} (hs : h.Sound) (hc : h.cellAt i = some c) :
    (h.move i c base).Sound := by
  have hset : (h.setCell i (some { c with base })).Sound := hs.setCell hc
  exact ⟨hset.empty, hset.nodup⟩

theorem insert (hs : h.Sound) : (h.insert c).2.Sound := by
  refine ⟨fun i hi => ?_, ?_⟩
  · rw [free_insert] at hi
    have hne : i ≠ h.nextSlot := by
      unfold nextSlot
      cases hf : h.free with
      | nil => simp [hf] at hi
      | cons j rest =>
        rintro rfl
        rw [hf] at hi
        exact (List.nodup_cons.1 (hf ▸ hs.nodup)).1 hi
    obtain ⟨hlt, hempty⟩ := hs.empty i (List.mem_of_mem_tail hi)
    rw [cellAt_insert hs, if_neg hne, length_slots_insert]
    exact ⟨by split <;> omega, hempty⟩
  · rw [free_insert]
    exact hs.nodup.sublist (List.tail_sublist _)

theorem vacate {base : Nat} (hs : h.Sound) (hc : h.cellAt i = some c) :
    (h.vacate i base).Sound := by
  refine ⟨fun j hj => ?_, List.nodup_cons.2 ⟨hs.not_free hc, hs.nodup⟩⟩
  rw [cellAt_vacate]
  by_cases hji : j = i
  · subst hji
    simpa [Heap.vacate] using lt_of_cellAt hc
  · rw [if_neg hji]
    have hold := hs.empty j ((List.mem_cons.1 hj).resolve_left hji)
    simpa [Heap.vacate] using hold

end Sound

/-! ### Cells are moved -/

def moveSlot (place : Nat → Nat) (h : Heap) (i : Nat) : Heap :=
  match h.movable? i with
  | some c => h.move i c (place i)
  | none => h

variable {place : Nat → Nat}

theorem moveSlot_cases (place : Nat → Nat) (h : Heap) (i : Nat) :
    h.movable? i = none ∧ h.moveSlot place i = h ∨
      ∃ c, h.cellAt i = some c ∧ c.pins = 0 ∧ h.moveSlot place i = h.move i c (place i) := by
  unfold moveSlot
  cases hm : h.movable? i with
  | none => exact .inl ⟨rfl, rfl⟩
  | some c =>
    obtain ⟨hc, hp⟩ := movable?_eq_some_iff.1 hm
    exact .inr ⟨c, hc, hp, rfl⟩

theorem movable?_moveSlot (hij : j ≠ i) : (h.moveSlot place i).movable? j = h.movable? j := by
  obtain ⟨_, he⟩ | ⟨c, hc, _, he⟩ := moveSlot_cases place h i
  · rw [he]
  · rw [he]
    simp [movable?, move, setCell, hij.symm]

theorem movable?_foldl_moveSlot {is : List Nat} (hj : j ∉ is) :
    (is.foldl (moveSlot place) h).movable? j = h.movable? j := by
  induction is generalizing h with
  | nil => rfl
  | cons i is ih =>
    obtain ⟨hji, hjs⟩ := List.ne_and_not_mem_of_not_mem_cons hj
    rw [List.foldl_cons, ih hjs, movable?_moveSlot hji]

/-- Moves the cell of one slot and counts it, if it may move. -/
def countSlot (place : Nat → Nat) : Nat × Heap → Nat → Nat × Heap := fun (n, h) i =>
  match h.movable? i with
  | some c => (n + 1, h.move i c (place i))
  | none => (n, h)

theorem countSlot_eq {n : Nat} : countSlot place (n, h) i =
    (n + if (h.movable? i).isSome then 1 else 0, h.moveSlot place i) := by
  cases hm : h.movable? i <;> simp [countSlot, moveSlot, hm]

theorem foldl_countSlot {is : List Nat} {n : Nat} (hd : is.Nodup) :
    is.foldl (countSlot place) (n, h) =
      (n + is.countP fun i => (h.movable? i).isSome, is.foldl (moveSlot place) h) := by
  induction is generalizing n h with
  | nil => simp
  | cons i is ih =>
    obtain ⟨hi, his⟩ := List.nodup_cons.1 hd
    have hrest : is.countP (fun j => ((h.moveSlot place i).movable? j).isSome) =
        is.countP fun j => (h.movable? j).isSome :=
      List.countP_congr fun j hj => by
        rw [movable?_moveSlot]
        rintro rfl
        exact hi hj
    rw [List.foldl_cons, List.foldl_cons, countSlot_eq, ih his, hrest, List.countP_cons]
    congr 1
    omega

/-- The slots are moved one after another, and those are counted that could move at first. -/
theorem relocate_eq (h : Heap) (place : Nat → Nat) : h.relocate place =
    ((List.range h.slots.length).countP fun i => (h.movable? i).isSome,
      (List.range h.slots.length).foldl (moveSlot place) h) := by
  have hfold : h.relocate place = (List.range h.slots.length).foldl (countSlot place) (0, h) := rfl
  rw [hfold, foldl_countSlot List.nodup_range, Nat.zero_add]

/-- What every move of a cell keeps is kept when all are moved. -/
theorem relocate_induction {P : Heap → Prop} (hstart : P h)
    (hmove : ∀ (h : Heap) i c, P h → h.cellAt i = some c → c.pins = 0 → P (h.move i c (place i))) :
    P (h.relocate place).2 := by
  rw [relocate_eq]
  refine List.foldlRecOn _ _ hstart fun h' hP i _ => ?_
  obtain ⟨_, he⟩ | ⟨c, hc, hp, he⟩ := moveSlot_cases place h' i
  · rwa [he]
  · rw [he]
    exact hmove h' i c hP hc hp

end Heap

/-- When slots are moved to the places that an allocator has for them, each is moved in the heap
that the allocator saw. -/
theorem Allocator.foldl_moveSlot_place (a : Allocator) (h : Heap) (limit n : Nat) :
    (List.range n).foldl (Heap.moveSlot (a.place h limit)) h = (a.stage h limit n).1 := by
  induction n with
  | zero => rfl
  | succ n ih =>
    rw [List.range_succ, List.foldl_append, List.foldl_cons, List.foldl_nil, ih]
    unfold Heap.moveSlot
    cases hm : (a.stage h limit n).1.movable? n with
    | none => rw [stage_of_none hm]
    | some c => rw [stage_of_some hm]

end AccelHost
