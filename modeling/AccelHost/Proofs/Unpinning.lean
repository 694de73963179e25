import AccelHost.Proofs.Marshalling
import AccelHost.Proofs.Pinning

/-!
Guards that go back leave the heap as it was before they were taken. They may go back in any order,
since each is counted on its own cell.
-/
namespace AccelHost

def Cell.dropPin (c : Cell) : Cell := { c with pins := if c.pins = 0 then 0 else c.pins - 1 }

def Slot.unpinned (s : Slot) : Slot := { s with cell := s.cell.map Cell.unpinned }

namespace Heap

/-- Heaps with the same slots, but for pins, that lie at the same addresses. -/
structure SameButPins (h h' : Heap) : Prop where
  slots : h'.slots.map Slot.unpinned = h.slots.map Slot.unpinned
  free : h'.free = h.free
  starts : h'.starts = h.starts

variable {h h' : Heap} {r : ObjRef} {c : Cell} {i j : Nat} {o o' : Option Cell}

/-! ### Cells set one after another -/

theorem setCell_setCell : (h.setCell i o).setCell i o' = h.setCell i o' := by
  simp only [setCell, List.modify_modify_eq]
  rfl

theorem setCell_comm (hij : i ≠ j) :
    (h.setCell i o).setCell j o' = (h.setCell j o').setCell i o := by
  simp only [setCell, List.modify_modify_ne _ _ _ hij]

theorem setCell_self (hc : h.cell? r = some c) : h.setCell r.index (some c) = h := by
  have hcell := (cell?_iff_cellAt.1 hc).2
  have hslots : h.slots.modify r.index (fun s => { s with cell := some c }) = h.slots := by
    refine List.ext_getElem? fun j => ?_
    rw [List.getElem?_modify]
    by_cases hj : r.index = j
    · subst hj
      cases hs : h.slots[r.index]? with
      | none => rfl
      | some s =>
        have hsame : s.cell = some c := by simpa [cellAt, hs] using hcell
        simp [← hsame]
    · simp [hj]
  rw [setCell, hslots]

/-! ### A guard goes back -/

theorem unpin_of_some {g : Guard} (hc : h.cell? g.ref = some c) :
    h.unpin g = h.setCell g.ref.index (some c.dropPin) := by
  simp only [unpin, hc, Cell.dropPin]

theorem unpin_of_none {g : Guard} (hc : h.cell? g.ref = none) : h.unpin g = h := by
  simp only [unpin, hc]

theorem cell?_unpin (g : Guard) :
    (h.unpin g).cell? r = if r = g.ref then (h.cell? r).map Cell.dropPin else h.cell? r := by
  cases hc : h.cell? g.ref with
  | none =>
    rw [unpin_of_none hc]
    split
    · rename_i hr
      rw [hr, hc]
      rfl
    · rfl
  | some c =>
    rw [unpin_of_some hc, cell?_setCell hc]
    split
    · rename_i hr
      rw [hr, hc]
      rfl
    · rfl

theorem unpin_comm (a b : Guard) : (h.unpin a).unpin b = (h.unpin b).unpin a := by
  by_cases hab : a.ref = b.ref
  · unfold unpin
    rw [hab]
  · have hb : (h.unpin a).cell? b.ref = h.cell? b.ref := by rw [cell?_unpin, if_neg (Ne.symm hab)]
    have ha : (h.unpin b).cell? a.ref = h.cell? a.ref := by rw [cell?_unpin, if_neg hab]
    cases hca : h.cell? a.ref with
    | none => rw [unpin_of_none hca, unpin_of_none (ha.trans hca)]
    | some ca =>
      cases hcb : h.cell? b.ref with
      | none => rw [unpin_of_none hcb, unpin_of_none (hb.trans hcb)]
      | some cb =>
        -- Two live cells that are not the same lie in different slots.
        have hi : a.ref.index ≠ b.ref.index := fun hi => hab (eq_of_cell? hca hcb hi)
        rw [unpin_of_some (hb.trans hcb), unpin_of_some (ha.trans hca), unpin_of_some hca,
          unpin_of_some hcb, setCell_comm hi]

theorem unpinAll_unpin (gs : List Guard) (g : Guard) :
    (h.unpin g).unpinAll gs = (h.unpinAll gs).unpin g := by
  induction gs generalizing h with
  | nil => rfl
  | cons g' gs ih =>
    have hstep : (h.unpin g).unpinAll (g' :: gs) = ((h.unpin g).unpin g').unpinAll gs := rfl
    rw [hstep, unpin_comm, ih]
    rfl

theorem unpin_of_pin {g : Guard} (hp : h.pin r = .ok (g, h'))
    (hfew : h.pinCount r + 1 < UInt32.size) :
    h'.unpin g = h := by
  obtain ⟨c, hc, rfl, rfl⟩ := exists_of_pin hp
  have hcount : c.pins.toNat + 1 < UInt32.size := by simpa [pinCount, hc] using hfew
  have hnext : (c.pins + 1).toNat = c.pins.toNat + 1 := by
    rw [UInt32.toNat_add]
    exact Nat.mod_eq_of_lt hcount
  have hne : c.pins + 1 ≠ 0 := by
    intro hz
    rw [hz] at hnext
    exact absurd hnext (by simp)
  have hback : ({ c with pins := c.pins + 1 } : Cell).dropPin = c := by
    simp [Cell.dropPin, hne]
  have hpinned : (h.addPin r c).cell? r = some { c with pins := c.pins + 1 } := by
    rw [cell?_addPin hc, if_pos rfl]
  have hflag : (h.wrapped || c.pins + 1 == 0) = h.wrapped := by simp [hne]
  rw [unpin_of_some (g := ⟨r, c.base, c.length⟩) hpinned, hback]
  calc (h.addPin r c).setCell r.index (some c)
      = { (h.setCell r.index (some { c with pins := c.pins + 1 })).setCell r.index (some c) with
          wrapped := h.wrapped || c.pins + 1 == 0 } := rfl
    _ = h := by rw [setCell_setCell, setCell_self hc, hflag]

theorem pinCount_of_pin {g : Guard} {r' : ObjRef} (hp : h.pin r = .ok (g, h'))
    (hfew : h.pinCount r + 1 < UInt32.size) :
    h'.pinCount r' = h.pinCount r' + if r' = r then 1 else 0 := by
  obtain ⟨c, hc, rfl, rfl⟩ := exists_of_pin hp
  have hcount : c.pins.toNat + 1 < UInt32.size := by simpa [pinCount, hc] using hfew
  have hnext : (c.pins + 1).toNat = c.pins.toNat + 1 := by
    rw [UInt32.toNat_add]
    exact Nat.mod_eq_of_lt hcount
  unfold pinCount
  rw [cell?_addPin hc]
  split
  · rename_i hr
    rw [hr, hc]
    exact hnext
  · rfl

theorem SameButPins.refl (h : Heap) : h.SameButPins h := ⟨rfl, rfl, rfl⟩

theorem SameButPins.trans {h₁ h₂ h₃ : Heap} (h : h₁.SameButPins h₂) (h' : h₂.SameButPins h₃) :
    h₁.SameButPins h₃ :=
  ⟨h'.slots.trans h.slots, h'.free.trans h.free, h'.starts.trans h.starts⟩

theorem map_unpinned_setCell {c' : Cell} (hc : h.cell? r = some c)
    (hsame : c'.unpinned = c.unpinned) :
    (h.setCell r.index (some c')).slots.map Slot.unpinned = h.slots.map Slot.unpinned := by
  have hcell := (cell?_iff_cellAt.1 hc).2
  refine List.ext_getElem? fun j => ?_
  rw [List.getElem?_map, List.getElem?_map, setCell, List.getElem?_modify]
  by_cases hj : r.index = j
  · subst hj
    cases hs : h.slots[r.index]? with
    | none => rfl
    | some s =>
      have hold : s.cell = some c := by simpa [cellAt, hs] using hcell
      simp [Slot.unpinned, hold, hsame]
  · simp [hj]

theorem sameButPins_of_pin {g : Guard} (hp : h.pin r = .ok (g, h')) : h.SameButPins h' := by
  obtain ⟨c, hc, rfl, rfl⟩ := exists_of_pin hp
  exact ⟨map_unpinned_setCell hc rfl, rfl, rfl⟩

theorem sameButPins_unpin (g : Guard) : h.SameButPins (h.unpin g) := by
  cases hc : h.cell? g.ref with
  | none =>
    rw [unpin_of_none hc]
    exact .refl h
  | some c =>
    rw [unpin_of_some hc]
    exact ⟨map_unpinned_setCell hc rfl, rfl, rfl⟩

theorem sameButPins_unpinAll (gs : List Guard) : h.SameButPins (h.unpinAll gs) := by
  induction gs generalizing h with
  | nil => exact .refl h
  | cons g gs ih => exact (sameButPins_unpin g).trans ih

theorem Pins.sameButPins {gs : List Guard} (hp : h.Pins gs h') : h.SameButPins h' := by
  induction hp with
  | nil => exact .refl _
  | cons hr _ ih => exact (sameButPins_of_pin hr).trans ih

/-- Cells that were pinned, not more often than can be counted, are as before when all their guards
have gone back. -/
theorem Pins.unpinAll_eq {gs : List Guard} (hp : h.Pins gs h')
    (hfew : ∀ r, h.pinCount r + (gs.map (·.ref)).count r < UInt32.size) : h'.unpinAll gs = h := by
  induction hp with
  | nil => rfl
  | @cons h h₁ h₂ r g gs hr _ ih =>
    obtain ⟨c, _, hg, _⟩ := exists_of_pin hr
    have hone : h.pinCount r + 1 < UInt32.size := by
      have hall := hfew r
      simp only [hg, List.map_cons, List.count_cons_self] at hall
      omega
    have hrest : h₂.unpinAll gs = h₁ := by
      refine ih fun r' => ?_
      have hall := hfew r'
      rw [pinCount_of_pin hr hone]
      simp only [hg, List.map_cons, List.count_cons, beq_iff_eq] at hall
      split <;> simp_all <;> omega
    have hstep : h₂.unpinAll (g :: gs) = (h₂.unpin g).unpinAll gs := rfl
    rw [hstep, unpinAll_unpin, hrest, unpin_of_pin hr hone]

end Heap

end AccelHost
