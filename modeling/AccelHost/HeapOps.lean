import AccelHost.Machine

/-!
Operations on the heap of a host, by the names of its objects and guards.
-/
namespace AccelHost

namespace Host

variable (h : Host)

/-- Names a new cell, whose block for some bytes lies where the allocator lays it. -/
def allocate (name : Label) (bytes : Nat) (new : Nat → ObjRef × Heap) : Reply × Host :=
  let size := (Block.zeroed bytes).size
  let (r, heap) := new (h.allocator.base h.heap h.addressLimit size)
  (.ok (.ref r), { h with
    heap
    objects := h.objects.set name r
    addressLimit := h.allocator.next h.addressLimit size })

def withObject (obj : Label) (f : ObjRef → Except DispatchError (Outcome × Host)) : Reply × Host :=
  match h.objects.get? obj with
  | none => (.error .noLabel, h)
  | some r =>
    match f r with
    | .ok (outcome, h) => (.ok outcome, h)
    | .error e => (.error (.dispatch e), h)

def askObject (obj : Label) (f : ObjRef → Except DispatchError Outcome) : Reply × Host :=
  h.withObject obj fun r => (f r).map (·, h)

def changeObject (obj : Label) (f : ObjRef → Except DispatchError Heap) : Reply × Host :=
  h.withObject obj fun r => (f r).map fun heap => (.done, { h with heap })

def unpin (g : Guard) : Host := { h with heap := h.heap.unpin g }

/-- Names a guard. The guard that had the name goes back. -/
def keepGuard (name : Label) (g : Guard) : Host :=
  let before := h.guards.get? name
  let h := { h with guards := h.guards.set name g }
  match before with
  | some g => h.unpin g
  | none => h

/-- The named live objects that lie in two heaps at the same address, in order of name. -/
def stayed (before after : Heap) : List Label :=
  let names := h.objects.filterMap fun (name, r) =>
    match before.address r, after.address r with
    | .ok a, .ok b => if a = b then some name else none
    | _, _ => none
  names.mergeSort fun a b => a ≤ b

/-- Moves every cell that is not pinned to a place of its own. -/
def relocate : Reply × Host :=
  let (moved, heap) := h.heap.relocate (h.allocator.place h.heap h.addressLimit)
  (.ok (.moved moved (h.stayed h.heap heap)), { h with
    heap
    addressLimit := (h.allocator.stage h.heap h.addressLimit h.heap.slots.length).2 })

end Host

def offsetWord (a : UInt64) (offset : Int) : UInt64 := a + (Int64.ofInt offset).toUInt64

namespace HeapOp

def perform (h : Host) : HeapOp → Reply × Host
  | newObject className fields name =>
    h.allocate name (Heap.byteSize fields 8) (h.heap.newObject className fields)
  | newArray k length name =>
    h.allocate name (Heap.byteSize length k.size) (h.heap.newArray k length)
  | newArrayFrom k values name =>
    h.allocate name (Heap.byteSize values.length k.size) (h.heap.newArrayFrom k values)
  | foreign r name => (.ok (.foreign r), { h with objects := h.objects.set name r })
  | free obj => h.changeObject obj h.heap.freeCell
  | kind obj => h.askObject obj fun r => (h.heap.kind r).map fun k => .text k.text
  | arrayLength obj => h.askObject obj fun r => (h.heap.arrayLength r).map .count
  | read k obj => h.askObject obj fun r => (h.heap.readArray k r).map (.elements k)
  | write k obj values => h.changeObject obj fun r => h.heap.writeArray k r values
  | readField obj index => h.askObject obj fun r => (h.heap.readField r index).map .field
  | writeField obj index value => h.changeObject obj fun r => h.heap.writeField r index value
  | resolveAddress a => (.ok (.located (h.heap.resolveAddress a.toNat)), h)
  | resolveObject obj offset => h.askObject obj fun r =>
      (h.heap.address r).map fun a =>
        .located (h.heap.resolveAddress (offsetWord (UInt64.ofNat a) offset).toNat)
  | mark obj => h.withObject obj fun r =>
      (h.heap.address r).map fun a => (.done, { h with marks := h.marks.set obj a })
  | pin obj name => h.withObject obj fun r =>
      (h.heap.pin r).map fun (g, heap) => (.pinned g, { h with heap }.keepGuard name g)
  | unpin name =>
    match h.guards.get? name with
    | some g => (.ok .done, { h with guards := h.guards.erase name }.unpin g)
    | none => (.error .noLabel, h)
  | isPinned obj => h.askObject obj fun r => .ok (.flag (h.heap.isPinned r))
  | relocate => h.relocate
  | size => (.ok (.size h.heap.size), h)
  | display obj => h.askObject obj fun r => .ok (.text r.text)

end HeapOp

end AccelHost
