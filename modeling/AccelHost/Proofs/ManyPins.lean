import AccelHost.Proofs.Unpinning

/-!
Objects that are pinned again and again. Pins are counted in 32 bits, so that a cell may get as many
as its count can tell, and the next one makes it seem not to be pinned at all.
-/
namespace AccelHost

def mostPins : Nat := UInt32.size - 1

def tally (i : Nat) : Label := String.ofList (List.replicate i '|')

theorem eq_of_tally {i j : Nat} (h : tally i = tally j) : i = j := by
  simpa [tally] using congrArg String.length h

/-- Pins an object so many times. Each guard is named by a number of its own. -/
def pinnings (obj : Label) (k : Nat) : List Op :=
  (List.range k).map fun i => .heap (.pin obj (tally i))

/-- The program that goes on to pin one of its objects. -/
def Program.pinning (p : Program) (obj : Label) (k : Nat) : Program :=
  { p with steps := p.steps ++ pinnings obj k }

/-- The host where a cell got so many pins more, each with its guard. -/
def Host.manyPinned (h : Host) (r : ObjRef) (k : Nat) : Host :=
  match h.heap.cell? r with
  | some c => { h with
      heap := h.heap.setCell r.index (some { c with pins := c.pins + UInt32.ofNat k })
      guards := h.guards ++ (List.range k).map fun i => (tally i, ⟨r, c.base, c.length⟩) }
  | none => h

variable {m : Machine} {h : Host} {r : ObjRef} {c : Cell} {obj : Label} {k : Nat}

theorem Host.manyPinned_zero : h.manyPinned r 0 = h := by
  unfold manyPinned
  split
  · rename_i c hc
    have hsame : ({ c with pins := c.pins + UInt32.ofNat 0 } : Cell) = c := by simp
    rw [hsame, Heap.setCell_self hc]
    simp
  · rfl

theorem Heap.pin_setCell {heap : Heap} {d : Cell} (hc : heap.cell? r = some c)
    (hroom : d.pins + 1 ≠ 0) :
    (heap.setCell r.index (some d)).pin r = .ok (⟨r, d.base, d.length⟩,
      heap.setCell r.index (some { d with pins := d.pins + 1 })) := by
  have hcell : (heap.setCell r.index (some d)).cell? r = some d := by
    rw [cell?_setCell hc, if_pos rfl]
  have hflag : (heap.wrapped || d.pins + 1 == 0) = heap.wrapped := by simp [hroom]
  calc (heap.setCell r.index (some d)).pin r
      = .ok (⟨r, d.base, d.length⟩, { (heap.setCell r.index (some d)).setCell r.index
          (some { d with pins := d.pins + 1 }) with
            wrapped := heap.wrapped || d.pins + 1 == 0 }) := by
        simp only [pin, get, hcell, Except.map]
        rfl
    _ = _ := by rw [setCell_setCell, hflag]; rfl

/-- One more pin, which the count has room for, under a number that no guard has yet. -/
theorem Host.perform_pin_manyPinned (hobj : h.objects.get? obj = some r)
    (hc : h.heap.cell? r = some c) (hpins : c.pins = 0) (hguards : h.guards = [])
    (hk : k < mostPins) :
    ((HeapOp.pin obj (tally k)).perform (h.manyPinned r k)).2 = h.manyPinned r (k + 1) := by
  have hnext : UInt32.ofNat k + 1 = UInt32.ofNat (k + 1) := by simp [UInt32.ofNat_add]
  have hvalue : (UInt32.ofNat k + 1).toNat = k + 1 := by
    have hsize : k + 1 < UInt32.size := Nat.add_lt_of_lt_sub hk
    rw [hnext, UInt32.toNat_ofNat_of_lt' hsize]
  have hroom : UInt32.ofNat k + 1 ≠ 0 := fun hzero => by
    rw [hzero] at hvalue
    cases hvalue
  let guards : Keyed Label Guard := (List.range k).map fun i => (tally i, ⟨r, c.base, c.length⟩)
  have hnew : tally k ∉ guards.keys := by
    simp only [guards, Keyed.keys, List.map_map, List.mem_map, List.mem_range, not_exists, not_and]
    exact fun i hi heq => Nat.ne_of_lt hi (eq_of_tally heq)
  have hset : guards.set (tally k) ⟨r, c.base, c.length⟩ =
      (List.range (k + 1)).map fun i => (tally i, ⟨r, c.base, c.length⟩) := by
    simp [Keyed.set_of_not_mem_keys hnew, List.range_succ, guards]
  have hput := Heap.pin_setCell (d := { c with pins := UInt32.ofNat k }) hc hroom
  simp only [manyPinned, hc, hpins, hguards, List.nil_append, UInt32.zero_add, HeapOp.perform,
    withObject, hobj, hput, hnext, Except.map, keepGuard, ← hset]
  rw [show Keyed.get? (tally k) guards = none from Keyed.get?_eq_none_iff.2 hnew]

theorem after_pinnings (n : Nested) (hobj : m.host.objects.get? obj = some r)
    (hc : m.host.heap.cell? r = some c) (hpins : c.pins = 0) (hguards : m.host.guards = [])
    (hk : k ≤ mostPins) :
    ((pinnings obj k).mapM (Op.answer n)).after m = m.withHost (m.host.manyPinned r k) := by
  induction k with
  | zero =>
    rw [Host.manyPinned_zero]
    rfl
  | succ k ih =>
    have hlast : pinnings obj (k + 1) = pinnings obj k ++ [.heap (.pin obj (tally k))] := by
      simp [pinnings, List.range_succ]
    have hstep := m.host.perform_pin_manyPinned hobj hc hpins hguards hk
    rw [hlast, List.mapM_append, ← hstep]
    calc ((pinnings obj k).mapM (Op.answer n) >>= _).after m
        = ((Op.heap (.pin obj (tally k))).answer n).after
            (((pinnings obj k).mapM (Op.answer n)).after m) := rfl
      _ = _ := by
        rw [ih (Nat.le_of_succ_le hk)]
        rfl

/-- A machine where a program has pinned one of its objects so many times after all else. -/
theorem Program.after_pinning (n : Nested) (p : Program) (obj : Label) (r : ObjRef)
    (hobj : ((p.steps.mapM (Op.answer n)).after (.ofProgram p)).host.objects.get? obj = some r)
    (hpins : (((p.steps.mapM (Op.answer n)).after (.ofProgram p)).host.heap.cell? r).map (·.pins) =
      some 0)
    (hguards : ((p.steps.mapM (Op.answer n)).after (.ofProgram p)).host.guards = [])
    (hk : k ≤ mostPins) :
    ((p.pinning obj k).steps.mapM (Op.answer n)).after (.ofProgram (p.pinning obj k)) =
      ((p.steps.mapM (Op.answer n)).after (.ofProgram p)).withHost
        (((p.steps.mapM (Op.answer n)).after (.ofProgram p)).host.manyPinned r k) := by
  obtain ⟨c, hc, hzero⟩ := Option.map_eq_some_iff.1 hpins
  rw [← after_pinnings n hobj hc hzero hguards hk]
  unfold pinning
  rw [List.mapM_append]
  rfl

end AccelHost
