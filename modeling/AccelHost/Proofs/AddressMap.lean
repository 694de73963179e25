import AccelHost.Proofs.HeapRuns

/-!
The address map is exact. A heap keeps, by where it starts, the slot of every block, and looks an
address up among the starts at it or before it. As long as an allocator gives out no room that is
taken, an address is found if and only if it lies in the block of a live cell, also right after
collections in which a block moved to where another had been.
-/
namespace AccelHost

namespace Heap

/-! ### The last start -/

/-- The later of two starts, of those at an address or before it. -/
def laterStart (address : Nat) (best : Option (Nat × Nat)) (e : Nat × Nat) : Option (Nat × Nat) :=
  if e.1 ≤ address then
    match best with
    | some b => if b.1 < e.1 then some e else best
    | none => some e
  else best

/-- Of some starts, the last at an address or before it, if there is one. -/
structure IsLast (starts : List (Nat × Nat)) (address : Nat) (best : Option (Nat × Nat)) :
    Prop where
  mem : ∀ b ∈ best, b ∈ starts ∧ b.1 ≤ address
  le : ∀ e ∈ starts, e.1 ≤ address → ∃ b ∈ best, e.1 ≤ b.1

theorem IsLast.later {starts : List (Nat × Nat)} {address : Nat} {best : Option (Nat × Nat)}
    (hl : IsLast starts address best) (e : Nat × Nat) :
    IsLast (starts ++ [e]) address (laterStart address best e) := by
  have hkeep : ∀ b ∈ best, b ∈ starts ++ [e] ∧ b.1 ≤ address := fun b hb =>
    ⟨List.mem_append_left _ (hl.mem b hb).1, (hl.mem b hb).2⟩
  unfold laterStart
  -- A start beyond the address is passed over; of the others the later is kept.
  by_cases he : e.1 ≤ address
  · rw [if_pos he]
    cases best with
    | none =>
      refine ⟨by simp [he], fun x hx hle => ⟨e, rfl, ?_⟩⟩
      rcases List.mem_append.1 hx with hx | hx
      · obtain ⟨b, hb, _⟩ := hl.le x hx hle
        cases hb
      · simp [List.mem_singleton.1 hx]
    | some b =>
      by_cases hlt : b.1 < e.1
      · simp only [hlt, ↓reduceIte]
        refine ⟨by simp [he], fun x hx hle => ⟨e, rfl, ?_⟩⟩
        rcases List.mem_append.1 hx with hx | hx
        · obtain ⟨b', hb', hle'⟩ := hl.le x hx hle
          cases hb'
          omega
        · simp [List.mem_singleton.1 hx]
      · simp only [hlt, ↓reduceIte]
        refine ⟨hkeep, fun x hx hle => ⟨b, rfl, ?_⟩⟩
        rcases List.mem_append.1 hx with hx | hx
        · obtain ⟨b', hb', hle'⟩ := hl.le x hx hle
          cases hb'
          exact hle'
        · rw [List.mem_singleton.1 hx]
          omega
  · rw [if_neg he]
    refine ⟨hkeep, fun x hx hle => ?_⟩
    rcases List.mem_append.1 hx with hx | hx
    · exact hl.le x hx hle
    · rw [List.mem_singleton.1 hx] at hle
      exact absurd hle he

theorem isLast_lastStart (h : Heap) (address : Nat) :
    IsLast h.starts address (h.lastStart address) := by
  suffices key : ∀ (rest before : List (Nat × Nat)) best, IsLast before address best →
      IsLast (before ++ rest) address (rest.foldl (laterStart address) best) by
    exact key h.starts [] none ⟨by simp, by simp⟩
  intro rest
  induction rest with
  | nil => intro before best hl; simpa using hl
  | cons e rest ih =>
    intro before best hl
    have hrest := ih _ _ (hl.later e)
    rwa [List.append_assoc] at hrest

/-! ### What the map holds -/

/-- The map has the blocks of all live cells, which lie apart from one another. -/
structure Mapped (h : Heap) : Prop where
  sound : h.Sound
  starts : ∀ base i, (base, i) ∈ h.starts ↔ ∃ c, h.cellAt i = some c ∧ c.base = base
  placed : ∀ i c, h.cellAt i = some c →
    0 < c.base ∧ 0 < c.block.size ∧ c.base + c.block.size ≤ UInt64.size
  apart : ∀ i j c d, h.cellAt i = some c → h.cellAt j = some d → i ≠ j →
    Apart c.base c.block.size d.base d.block.size

theorem mapped_empty : Mapped {} :=
  ⟨sound_empty, by simp [cellAt], by simp [cellAt], by simp [cellAt]⟩

namespace Mapped

variable {h : Heap} {c d : Cell} {i j : Nat}

theorem eq_of_mem {a : Nat} (hm : h.Mapped) (hc : h.cellAt i = some c) (hd : h.cellAt j = some d)
    (hca : c.base ≤ a) (hac : a < c.base + c.block.size) (hda : d.base ≤ a)
    (had : a < d.base + d.block.size) : i = j := by
  by_cases hij : i = j
  · exact hij
  · have hapart := hm.apart i j c d hc hd hij
    unfold Apart at hapart
    omega

theorem not_mem_starts {base size : Nat} (hm : h.Mapped) (hpos : 0 < size)
    (hv : h.Vacant base size) : base ∉ Keyed.keys h.starts := by
  intro hmem
  obtain ⟨⟨b, i⟩, he, rfl⟩ := List.mem_map.1 hmem
  obtain ⟨c, hc, hb⟩ := (hm.starts b i).1 he
  have hapart := hv.apart hc
  have hsize := (hm.placed i c hc).2.1
  unfold Apart at hapart
  omega

theorem apart_put {h' : Heap} (hm : h.Mapped)
    (hcells : ∀ j, h'.cellAt j = if j = i then some c else h.cellAt j)
    (hapart : ∀ j d, j ≠ i → h.cellAt j = some d → Apart c.base c.block.size d.base d.block.size) :
    ∀ j k d e, h'.cellAt j = some d → h'.cellAt k = some e → j ≠ k →
      Apart d.base d.block.size e.base e.block.size := by
  intro j k d e hd he hjk
  rw [hcells] at hd he
  by_cases hj : j = i
  · have hk : k ≠ i := fun hk => hjk (hj.trans hk.symm)
    rw [if_pos hj] at hd
    rw [if_neg hk] at he
    cases hd
    exact hapart k e hk he
  · rw [if_neg hj] at hd
    by_cases hk : k = i
    · rw [if_pos hk] at he
      cases he
      exact (hapart j d hj hd).symm
    · rw [if_neg hk] at he
      exact hm.apart j k d e hd he hjk

theorem insert (hm : h.Mapped) (hpos : 0 < c.block.size) (hv : h.Vacant c.base c.block.size) :
    (h.insert c).2.Mapped := by
  have hcells : ∀ j, (h.insert c).2.cellAt j = if j = h.nextSlot then some c else h.cellAt j :=
    fun j => cellAt_insert hm.sound
  have hnew := hm.not_mem_starts hpos hv
  refine ⟨hm.sound.insert, fun base j => ?_, fun j d hd => ?_, ?_⟩
  · rw [starts_insert, Keyed.mem_set_of_not_mem_keys hnew, hm.starts, hcells]
    by_cases hj : j = h.nextSlot
    · subst hj
      simp [hm.sound.cellAt_nextSlot, eq_comm]
    · simp [hj]
  · rw [hcells] at hd
    by_cases hj : j = h.nextSlot
    · rw [if_pos hj] at hd
      cases hd
      exact ⟨hv.1, hpos, hv.2.1⟩
    · rw [if_neg hj] at hd
      exact hm.placed j d hd
  · exact hm.apart_put hcells fun j d _ hd => hv.apart hd

theorem vacate (hm : h.Mapped) (hc : h.cellAt i = some c) : (h.vacate i c.base).Mapped := by
  refine ⟨hm.sound.vacate hc, fun base j => ?_, fun j d hd => ?_, fun j k d e hd he hjk => ?_⟩
  · have hstarts : (h.vacate i c.base).starts = h.starts.erase c.base := rfl
    rw [hstarts, Keyed.mem_erase, hm.starts, cellAt_vacate]
    by_cases hj : j = i
    · subst hj
      simp [hc, eq_comm]
    · simp only [hj, ↓reduceIte, and_iff_right_iff_imp]
      rintro ⟨d, hd, rfl⟩ hbase
      have hsize := (hm.placed i c hc).2.1
      have hsize' := (hm.placed j d hd).2.1
      exact hj (hm.eq_of_mem hd hc (Nat.le_refl _) (by omega) (by omega) (by omega))
  · rw [cellAt_vacate] at hd
    split at hd
    · cases hd
    · exact hm.placed j d hd
  · rw [cellAt_vacate] at hd he
    split at hd
    · cases hd
    · split at he
      · cases he
      · exact hm.apart j k d e hd he hjk

/-- What a block holds, and what is known of its cell otherwise, does not matter. -/
theorem replace {h' : Heap} {c' : Cell} (hm : h.Mapped) (hs : h'.Sound) (hc : h.cellAt i = some c)
    (hcells : ∀ j, h'.cellAt j = if j = i then some c' else h.cellAt j)
    (hstarts : h'.starts = h.starts) (hframe : c.SameFrame c') : h'.Mapped := by
  have hbase := hframe.base
  have hsize : c'.block.size = c.block.size := by simp [Block.size, hframe.words]
  refine ⟨hs, fun base j => ?_, fun j d hd => ?_, hm.apart_put hcells fun j d hj hd => ?_⟩
  · rw [hstarts, hm.starts, hcells]
    by_cases hj : j = i
    · simp [hj, hc, hbase]
    · simp [hj]
  · rw [hcells] at hd
    by_cases hj : j = i
    · rw [if_pos hj] at hd
      cases hd
      rw [hbase, hsize]
      exact hm.placed i c hc
    · rw [if_neg hj] at hd
      exact hm.placed j d hd
  · rw [hbase, hsize]
    exact hm.apart i j c d hc hd (Ne.symm hj)

theorem move {base : Nat} (hm : h.Mapped) (hc : h.cellAt i = some c)
    (hv : h.Vacant base c.block.size) : (h.move i c base).Mapped := by
  have hcells : ∀ j, (h.move i c base).cellAt j =
      if j = i then some { c with base } else h.cellAt j := fun j => cellAt_move hc
  have hpos := (hm.placed i c hc).2.1
  have hnew : base ∉ Keyed.keys (h.starts.erase c.base) := fun hmem => by
    obtain ⟨e, he, hb⟩ := List.mem_map.1 hmem
    exact hm.not_mem_starts hpos hv (List.mem_map.2 ⟨e, (List.mem_filter.1 he).1, hb⟩)
  refine ⟨hm.sound.move hc, fun base' j => ?_, fun j d hd => ?_, ?_⟩
  -- The map is that of a heap without the block, to which the block is added where it is now.
  · have hstarts : (h.move i c base).starts = (h.starts.erase c.base).set base i := rfl
    have herase := (hm.vacate hc).starts base' j
    have hvacate : (h.vacate i c.base).starts = h.starts.erase c.base := rfl
    rw [hvacate, cellAt_vacate] at herase
    rw [hstarts, Keyed.mem_set_of_not_mem_keys hnew, herase, hcells]
    by_cases hj : j = i
    · simp [hj, eq_comm]
    · simp [hj]
  · rw [hcells] at hd
    by_cases hj : j = i
    · rw [if_pos hj] at hd
      cases hd
      exact ⟨hv.1, hpos, hv.2.1⟩
    · rw [if_neg hj] at hd
      exact hm.placed j d hd
  · exact hm.apart_put hcells fun j d _ hd => hv.apart hd

theorem moveSlots {place : Nat → Nat} {is : List Nat} (hm : h.Mapped) (hr : Rooms place is h) :
    (is.foldl (moveSlot place) h).Mapped := by
  induction is generalizing h with
  | nil => exact hm
  | cons i is ih =>
    obtain ⟨hroom, hrest⟩ := hr
    have hstep : (h.moveSlot place i).Mapped := by
      obtain ⟨_, he⟩ | ⟨c, hc, hp, he⟩ := moveSlot_cases place h i
      · rw [he]
        exact hm
      · rw [he]
        exact hm.move hc (hroom c (movable?_eq_some_iff.2 ⟨hc, hp⟩))
    exact ih hstep hrest

theorem change {h' : Heap} {fits : Prop} {f : Option Nat} (hm : h.Mapped) (hfits : fits)
    (hc : h.Change fits f h') : h'.Mapped := by
  have hsound := hm.sound.change hc
  cases hc with
  | same => exact hm
  | insert hpos hv => exact hm.insert hpos (hv hfits)
  | free hc => exact hm.vacate (cell?_iff_cellAt.1 hc).2
  | replace hc hframe =>
    exact hm.replace hsound (cell?_iff_cellAt.1 hc).2 (fun j => cellAt_replace hc) rfl hframe
  | relocate hr =>
    rw [relocate_eq]
    exact hm.moveSlots (hr hfits)

theorem run {qs : List HeapRequest} (hm : h.Mapped) (ha : h.Admits qs) :
    (h.run qs).2.Mapped := by
  induction qs generalizing h with
  | nil => exact hm
  | cons q qs ih =>
    obtain ⟨hfits, hrest⟩ := ha
    have hstep := hm.change hfits (h.change_perform q)
    exact ih hstep hrest

/-! ### What is looked up -/

theorem resolveAddress_eq_some_iff {r : ObjRef} {a : Nat} (hm : h.Mapped) :
    h.resolveAddress a = some r ↔
      ∃ c, h.cell? r = some c ∧ c.base ≤ a ∧ a < c.base + c.block.size := by
  have hlast := h.isLast_lastStart a
  constructor
  · intro hr
    unfold resolveAddress at hr
    split at hr
    · cases hr
    · rename_i i _
      split at hr
      · rename_i g c hs
        split at hr
        · rename_i ha
          cases hr
          simp only [Cell.contains, Bool.and_eq_true, decide_eq_true_eq] at ha
          exact ⟨c, by simp [cell?, hs], ha⟩
        · cases hr
      · cases hr
  · rintro ⟨c, hc, hca, hac⟩
    obtain ⟨hg, hcell⟩ := cell?_iff_cellAt.1 hc
    -- The start that is found is not before that of the block, and so belongs to no other block.
    obtain ⟨⟨base, j⟩, hfound, hle⟩ := hlast.le _ ((hm.starts c.base r.index).2 ⟨c, hcell, rfl⟩) hca
    obtain ⟨hmem, hba⟩ := hlast.mem _ hfound
    obtain ⟨d, hd, rfl⟩ := (hm.starts base j).1 hmem
    have hsize := (hm.placed j d hd).2.1
    have hj : r.index = j := hm.eq_of_mem (a := d.base) hcell hd hle
      (Nat.lt_of_le_of_lt hba hac) (Nat.le_refl _) (by omega)
    subst hj
    obtain ⟨s, hs, hscell⟩ := Option.bind_eq_some_iff.1 hcell
    have hgen : s.generation = r.generation := by simpa [generationAt, hs] using hg
    obtain ⟨g, o⟩ := s
    simp only at hgen hscell
    have hcontains : c.contains a = true := by simp [Cell.contains, hca, hac]
    have hlook : h.lastStart a = some (d.base, r.index) := hfound
    simp [resolveAddress, hlook, hs, hscell, hcontains, hgen]

theorem resolve_within {r : ObjRef} {address : UInt64} {offset : Nat} (hm : h.Mapped)
    (hc : h.cell? r = some c) (ha : address.toNat = c.base + offset) (hlt : offset < c.block.size) :
    address ≠ 0 ∧ h.resolveAddress address.toNat = some r := by
  have hpos := (hm.placed _ c (cell?_iff_cellAt.1 hc).2).1
  constructor
  · rintro rfl
    rw [UInt64.toNat_zero] at ha
    omega
  · rw [ha]
    exact hm.resolveAddress_eq_some_iff.2 ⟨c, hc, by omega, by omega⟩

theorem atAddress?_eq {r : ObjRef} {offset width : Nat} (hm : h.Mapped) (hc : h.cell? r = some c)
    (hlt : offset < c.block.size) (hle : offset + width ≤ c.block.size) :
    h.atAddress? (c.base + offset) width = some (r, c, offset) := by
  have hfound : h.resolveAddress (c.base + offset) = some r :=
    hm.resolveAddress_eq_some_iff.2 ⟨c, hc, by omega, by omega⟩
  have hend : c.base + offset + width ≤ c.base + c.block.size := by omega
  simp [atAddress?, hfound, hc, hend]

end Mapped

/-- An address stands for a slot that 32 bits can tell, while there are no more slots. -/
theorem index_lt_of_resolveAddress {h : Heap} {r : ObjRef} {a : Nat} (hm : h.Mapped)
    (hfew : h.slots.length ≤ UInt32.size) (ha : h.resolveAddress a = some r) :
    r.index < UInt32.size := by
  obtain ⟨c, hc, -⟩ := hm.resolveAddress_eq_some_iff.1 ha
  exact index_lt_of_cell? hfew hc

/-- Addresses are resolved exactly. Whatever is asked of a heap, an allocator being known to give
only what is neither null nor beyond the addresses nor taken at the time, an address stands for a
reference if and only if the reference is live and the address lies in the block of its cell. So
live cells have different addresses, and the address of each, never null, stands for it. A slot is
told in 32 bits, which is enough for `2 ^ 32` of them (`index_lt_of_resolveAddress`). -/
theorem resolveAddress_exact {qs : List HeapRequest} (ha : Admits {} qs) :
    let h := (Heap.run {} qs).2
    (∀ a r, h.resolveAddress a = some r ↔
      ∃ c, h.cell? r = some c ∧ c.base ≤ a ∧ a < c.base + 8 * c.block.words) ∧
    (∀ r r' a, h.address r = .ok a → h.address r' = .ok a → r = r') ∧
    ∀ r a, h.address r = .ok a → 0 < a ∧ a < UInt64.size ∧ h.resolveAddress a = some r := by
  have hm := mapped_empty.run ha
  have haddress : ∀ r a, (Heap.run {} qs).2.address r = .ok a →
      0 < a ∧ a < UInt64.size ∧ (Heap.run {} qs).2.resolveAddress a = some r := by
    intro r a hra
    obtain ⟨c, hget, rfl⟩ := exists_of_map_eq_ok hra
    have hc := (Heap.run {} qs).2.get_eq_ok_iff.1 hget
    obtain ⟨hpos, hsize, hend⟩ := hm.placed r.index c (cell?_iff_cellAt.1 hc).2
    have hfound := hm.resolveAddress_eq_some_iff.2 ⟨c, hc, Nat.le_refl _, by omega⟩
    exact ⟨hpos, by omega, hfound⟩
  refine ⟨fun a r => hm.resolveAddress_eq_some_iff, fun r r' a hr hr' => ?_, haddress⟩
  have hfound := (haddress r a hr).2.2
  rw [(haddress r' a hr').2.2] at hfound
  exact (Option.some.inj hfound).symm

/-- An instance moves, and an empty array moves to where the instance was. -/
def swapping : List HeapRequest :=
  [.newObject "Box" 2 64, .newArray .int 0 80, .relocate fun i => if i = 0 then 96 else 64]

theorem resolveAddress_exact_swapping :
    Admits {} swapping ∧ (Heap.run {} swapping).2.resolveAddress 71 = some ⟨1, 0⟩ ∧
      (Heap.run {} swapping).2.resolveAddress 80 = none := by
  have ha : Admits {} swapping := by decide
  exact ⟨ha, ((resolveAddress_exact ha).1 71 ⟨1, 0⟩).2 ⟨_, rfl, by decide⟩, by decide⟩

end Heap

end AccelHost
