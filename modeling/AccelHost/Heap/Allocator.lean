import AccelHost.Heap.Basic

/-!
Where blocks are laid. An allocator chooses addresses as it likes, also such as were in use before,
as long as a block lies apart from those that are live. All blocks lie below a limit, which grows by
the size of each.
-/
namespace AccelHost

namespace Heap

/-- Two ranges of addresses, each by its start and its size, have none in common. -/
def Apart (base size base' size' : Nat) : Prop := base + size ≤ base' ∨ base' + size' ≤ base

instance (base size base' size' : Nat) : Decidable (Apart base size base' size') :=
  inferInstanceAs (Decidable (_ ∨ _))

/-- A range of addresses that is apart from every live block. -/
def Clear (h : Heap) (base size : Nat) : Prop :=
  ∀ s ∈ h.slots, ∀ c ∈ s.cell, Apart base size c.base c.block.size

instance (h : Heap) (base size : Nat) : Decidable (h.Clear base size) :=
  inferInstanceAs (Decidable (∀ s ∈ h.slots, ∀ c ∈ s.cell, _))

def Below (h : Heap) (limit : Nat) : Prop :=
  ∀ s ∈ h.slots, ∀ c ∈ s.cell, c.base + c.block.size ≤ limit

/-- A block may be laid at an address of a heap, from one limit of the addresses to another. -/
structure Lays (h : Heap) (limit base size limit' : Nat) : Prop where
  pos : 0 < limit → 0 < base
  clear : h.Below limit → h.Clear base size
  below : base + size ≤ limit'
  grows : limit + size ≤ limit'

end Heap

structure Allocator where
  /-- Where a block of some size is laid in a heap whose blocks lie below some limit. -/
  base : (h : Heap) → (limit size : Nat) → Nat
  /-- The limit below which all blocks lie then. -/
  next : (limit size : Nat) → Nat
  lays : ∀ (h : Heap) (limit size : Nat), h.Lays limit (base h limit size) size (next limit size)

namespace Allocator

variable (a : Allocator) (h : Heap) (limit : Nat)

/-- The heap and the limit once some slots have been gone through, and the cells in them that may
move are laid anew. -/
def stage : Nat → Heap × Nat
  | 0 => (h, limit)
  | i + 1 =>
    let (moved, limit) := stage i
    match moved.movable? i with
    | some c =>
      (moved.move i c (a.base moved limit c.block.size), a.next limit c.block.size)
    | none => (moved, limit)

/-- Where the cell in a slot is laid anew. -/
def place (i : Nat) : Nat :=
  let (moved, limit) := a.stage h limit i
  a.base moved limit (((moved.movable? i).map (·.block.size)).getD 0)

variable {a h limit} {i : Nat} {c : Cell}

theorem stage_of_none (hm : (a.stage h limit i).1.movable? i = none) :
    a.stage h limit (i + 1) = a.stage h limit i := by
  simp only [stage, hm]

theorem place_of_some (hm : (a.stage h limit i).1.movable? i = some c) :
    a.place h limit i =
      a.base (a.stage h limit i).1 (a.stage h limit i).2 c.block.size := by
  simp only [place, hm, Option.map_some, Option.getD_some]

theorem stage_of_some (hm : (a.stage h limit i).1.movable? i = some c) :
    a.stage h limit (i + 1) = ((a.stage h limit i).1.move i c (a.place h limit i),
      a.next (a.stage h limit i).2 c.block.size) := by
  simp only [stage, hm, place_of_some hm]

/-- What every move of a cell keeps is kept along the stages. -/
theorem stage_induction {P : Heap → Nat → Prop} (hstart : P h limit)
    (hmove : ∀ (h : Heap) limit i c, P h limit → h.movable? i = some c →
      P (h.move i c (a.base h limit c.block.size)) (a.next limit c.block.size)) (n : Nat) :
    P (a.stage h limit n).1 (a.stage h limit n).2 := by
  induction n with
  | zero => exact hstart
  | succ n ih =>
    cases hm : (a.stage h limit n).1.movable? n with
    | none =>
      rw [stage_of_none hm]
      exact ih
    | some c =>
      rw [stage_of_some hm, place_of_some hm]
      exact hmove _ _ n c ih hm

end Allocator

end AccelHost
