import AccelHost.Proofs.HeapSlots
import AccelHost.Proofs.Moves

/-!
Operations on the heap as moves.
-/
namespace AccelHost

namespace Heap

variable {h h' : Heap} {r : ObjRef}

theorem writes_of_writeArray {k : ElemKind} {values : List k.Val}
    (hw : h.writeArray k r values = .ok h') : h.Writes h' := by
  obtain ⟨c, hc, _, _, rfl⟩ := writeArray_eq_ok_iff.1 hw
  exact ⟨r, c, _, hc, Block.words_overwrite c.block k values, rfl⟩

theorem writes_of_writeField {i : Nat} {v : Int64} (hw : h.writeField r i v = .ok h') :
    h.Writes h' := by
  obtain ⟨c, _, hc, _, _, rfl⟩ := writeField_eq_ok_iff.1 hw
  exact ⟨r, c, _, hc, Block.words_store c.block _ _ _, rfl⟩

theorem writes_of_store? {address width : Nat} {w : UInt64}
    (hs : h.store? address width w = some h') : h.Writes h' := by
  obtain ⟨r, c, offset, hc, rfl⟩ := exists_of_store? hs
  exact ⟨r, c, _, hc, Block.words_store c.block _ _ _, rfl⟩

end Heap

namespace Moves

open Holding

variable {X : List Holding} {m : Machine}

theorem quietly {h : Host} (hq : m.host.Quiet h) : Moves X m X (m.withHost h) := by
  have hmove : Moves X m X { m with host := h, journal := m.journal, stuck := m.stuck } :=
    .quiet hq id
  exact hmove

theorem write {heap : Heap} (hw : m.host.heap.Writes heap) :
    Moves X m X (m.withHost { m.host with heap }) := .heap (.write hw)

theorem allocate {name : Label} {bytes : Nat} {c : Nat → Cell} (hpins : ∀ a, (c a).pins = 0)
    (hbase : ∀ a, (c a).base = a) (hsize : ∀ a, (c a).block.size = (Block.zeroed bytes).size) :
    Moves X m X (m.withHost
      (m.host.allocate name bytes fun a => m.host.heap.insert (c a)).2) := by
  let size := (Block.zeroed bytes).size
  let a := m.host.allocator.base m.host.heap m.host.addressLimit size
  have hpos : 0 < (c a).block.size := by
    rw [hsize]
    exact Block.size_zeroed_pos bytes
  have hlays : m.host.heap.Lays m.host.addressLimit (c a).base (c a).block.size
      (m.host.allocator.next m.host.addressLimit size) := by
    rw [hbase, hsize]
    exact m.host.allocator.lays _ _ _
  have hmove : Moves X m X _ := .heap (.insert (hpins a) hpos hlays)
  exact hmove.trans (.quietly ⟨rfl, Nat.le_refl _, Nat.le_refl _⟩)

theorem withObject {obj : Label} {f : ObjRef → Except DispatchError (Outcome × Host)}
    (hf : ∀ r outcome h, f r = .ok (outcome, h) → Moves X m X (m.withHost h)) :
    Moves X m X (m.withHost (m.host.withObject obj f).2) := by
  unfold Host.withObject
  split
  · exact .refl X m
  · split
    · rename_i h
      exact hf _ _ _ h
    · exact .refl X m

theorem askObject {obj : Label} {f : ObjRef → Except DispatchError Outcome} :
    Moves X m X (m.withHost (m.host.askObject obj f).2) := by
  refine .withObject fun r outcome h hr => ?_
  obtain ⟨a, _, ha⟩ := exists_of_map_eq_ok hr
  cases ha
  exact .refl X m

theorem changeObject {obj : Label} {f : ObjRef → Except DispatchError Heap}
    (hf : ∀ r heap, f r = .ok heap →
      m.host.heap.LaidStep m.host.addressLimit heap m.host.addressLimit) :
    Moves X m X (m.withHost (m.host.changeObject obj f).2) := by
  refine .withObject fun r outcome h hr => ?_
  obtain ⟨heap, hh, ha⟩ := exists_of_map_eq_ok hr
  cases ha
  exact .heap (hf r heap hh)

theorem keepGuard {name : Label} {g : Guard} :
    Moves (.guard g :: X) m X (m.withHost (m.host.keepGuard name g)) := by
  have hn : Moves (.guard g :: X) m _ _ := .name (l := name)
  unfold Host.keepGuard
  cases ho : m.host.guards.get? name with
  | none => simpa [ho, ofGuards] using hn
  | some old =>
    rw [ho] at hn
    exact hn.trans (.unpin (m := m.withHost { m.host with guards := m.host.guards.set name g }))

theorem relocate : Moves X m X (m.withHost m.host.relocate.2) := by
  let a := m.host.allocator
  let n := m.host.heap.slots.length
  have hmoves : Moves X m X (m.withHost { m.host with
      heap := (a.stage m.host.heap m.host.addressLimit n).1
      addressLimit := (a.stage m.host.heap m.host.addressLimit n).2 }) :=
    a.stage_induction (P := fun heap addressLimit =>
      Moves X m X (m.withHost { m.host with heap, addressLimit })) (.refl X m)
      (fun _ _ _ _ ih hm => ih.trans (.heap (.move hm (a.lays _ _ _)))) n
  rw [← Allocator.foldl_moveSlot_place] at hmoves
  simp only [Host.relocate, Heap.relocate_eq]
  exact hmoves

theorem heapOp (op : HeapOp) : Moves X m X (m.withHost (op.perform m.host).2) := by
  cases op with
  | newObject | newArray | newArrayFrom =>
    exact .allocate (fun _ => rfl) (fun _ => rfl) fun _ => rfl
  | «foreign» r name => exact .quietly ⟨rfl, Nat.le_refl _, Nat.le_refl _⟩
  | free obj => exact .changeObject fun r heap h => .free h
  | kind | arrayLength | read | readField | resolveObject | isPinned | display => exact .askObject
  | write k obj values =>
    exact .changeObject fun r heap h => .write (Heap.writes_of_writeArray h)
  | writeField obj index value =>
    exact .changeObject fun r heap h => .write (Heap.writes_of_writeField h)
  | resolveAddress | size => exact .refl X m
  | mark obj =>
    refine .withObject fun r outcome h hr => ?_
    obtain ⟨a, _, ha⟩ := exists_of_map_eq_ok hr
    cases ha
    exact .quietly ⟨rfl, Nat.le_refl _, Nat.le_refl _⟩
  | pin obj name =>
    refine .withObject fun r outcome h hr => ?_
    obtain ⟨⟨g, heap⟩, hp, ha⟩ := exists_of_map_eq_ok hr
    cases ha
    exact .trans (.pin hp) (.keepGuard (m := m.withHost { m.host with heap }))
  | unpin name =>
    simp only [HeapOp.perform]
    split
    · rename_i g hg
      exact .trans (.unname hg)
        (.unpin (m := m.withHost { m.host with guards := m.host.guards.erase name }))
    · exact .refl X m
  | relocate => exact .relocate

end Moves

end AccelHost
