import AccelHost.DispatchError
import AccelHost.Heap.Block
import AccelHost.Keyed

/-!
The managed heap: slots that hold cells, each with a block of storage at some address. A freed slot
is used again under another generation, so that old references are told apart. A collector may move
every block whose cell is not pinned.

Where blocks lie is not decided here: whoever allocates or moves gives the address.
-/
namespace AccelHost

structure Cell where
  kind : ObjectKind
  /-- Elements of an array, field slots of an instance. -/
  length : Nat
  block : Block
  /-- Address of the block. -/
  base : Nat
  pins : UInt32 := 0

namespace Cell

def contains (c : Cell) (address : Nat) : Bool :=
  c.base ≤ address && address < c.base + c.block.size

end Cell

structure Slot where
  generation : UInt32 := 0
  cell : Option Cell := none

structure Heap where
  slots : List Slot := []
  /-- Slots without a cell, the last freed first. -/
  free : List Nat := []
  /-- Slots by the address of their block. -/
  starts : Keyed Nat Nat := []
  /-- Whether the pins of a cell were ever more than their count can tell. -/
  wrapped : Bool := false

/-- A pinned cell, as whoever pinned it sees it. -/
structure Guard where
  ref : ObjRef
  base : Nat
  length : Nat
deriving DecidableEq

namespace Heap

variable (h : Heap)

/-- The live cell that a reference means, unless the reference is stale. -/
def cell? (r : ObjRef) : Option Cell :=
  match h.slots[r.index]? with
  | some s => if s.generation = r.generation then s.cell else none
  | none => none

def get (r : ObjRef) : Except DispatchError Cell :=
  match h.cell? r with
  | some c => .ok c
  | none => .error (.invalidReference r)

/-- Puts a cell into a slot, which keeps its generation. -/
def setCell (index : Nat) (c : Option Cell) : Heap :=
  { h with slots := h.slots.modify index fun s => { s with cell := c } }

/-- Puts a new cell into the slot freed last, or into a new slot if all are in use. -/
def insert (c : Cell) : ObjRef × Heap :=
  match h.free with
  | i :: rest =>
    let g := (h.slots[i]?.map (·.generation)).getD 0
    (⟨i, g⟩, { h.setCell i (some c) with free := rest, starts := h.starts.set c.base i })
  | [] =>
    let i := h.slots.length
    (⟨i, 0⟩, { h with slots := h.slots ++ [⟨0, some c⟩], starts := h.starts.set c.base i })

/-- Byte sizes are computed in 64 bits. -/
def byteSize (length elementSize : Nat) : Nat := length * elementSize % UInt64.size

/-- A new instance with so many field slots, its block at a given address. -/
def newObject (className : String) (fields base : Nat) : ObjRef × Heap :=
  h.insert { kind := .ofClass className, length := fields
             block := Block.zeroed (byteSize fields 8), base }

def newArray (k : ElemKind) (length base : Nat) : ObjRef × Heap :=
  h.insert { kind := .array k, length, block := Block.zeroed (byteSize length k.size), base }

def newArrayFrom (k : ElemKind) (values : List k.Val) (base : Nat) : ObjRef × Heap :=
  h.insert { kind := .array k, length := values.length
             block := (Block.zeroed (byteSize values.length k.size)).overwrite k values, base }

def freeCell (r : ObjRef) : Except DispatchError Heap :=
  match h.get r with
  | .error e => .error e
  | .ok c =>
    if 0 < c.pins then .error (.stillPinned r)
    else
      .ok { h with
        slots := h.slots.modify r.index fun s => ⟨s.generation + 1, none⟩
        free := r.index :: h.free
        starts := h.starts.erase c.base }

def kind (r : ObjRef) : Except DispatchError ObjectKind := (h.get r).map (·.kind)

def arrayLength (r : ObjRef) : Except DispatchError Nat :=
  match h.get r with
  | .error e => .error e
  | .ok c =>
    match c.kind with
    | .array _ => .ok c.length
    | other => .error (.wrongKind r .array other)

/-- The cell of a reference, if it is an array of a kind. -/
def arrayCell (k : ElemKind) (r : ObjRef) : Except DispatchError Cell :=
  match h.get r with
  | .error e => .error e
  | .ok c => if c.kind = .array k then .ok c else .error (.wrongKind r (.arrayOf k) c.kind)

def readArray (k : ElemKind) (r : ObjRef) : Except DispatchError (List k.Val) :=
  (h.arrayCell k r).map fun c => c.block.elements k c.length

def setBlock (r : ObjRef) (c : Cell) (b : Block) : Heap :=
  h.setCell r.index (some { c with block := b })

def writeArray (k : ElemKind) (r : ObjRef) (values : List k.Val) : Except DispatchError Heap :=
  match h.arrayCell k r with
  | .error e => .error e
  | .ok c =>
    if c.length < values.length then .error (.shortArray r values.length c.length)
    else .ok (h.setBlock r c (c.block.overwrite k values))

/-- The cell of a reference, if it is an instance with a field slot. -/
def fieldCell (r : ObjRef) (index : Nat) : Except DispatchError Cell :=
  match h.get r with
  | .error e => .error e
  | .ok c =>
    match c.kind with
    | .ofClass _ => if index < c.length then .ok c else .error (.noField r index c.length)
    | other => .error (.wrongKind r .fields other)

def readField (r : ObjRef) (index : Nat) : Except DispatchError Int64 :=
  (h.fieldCell r index).map fun c => c.block.element .long index

def writeField (r : ObjRef) (index : Nat) (value : Int64) : Except DispatchError Heap :=
  (h.fieldCell r index).map fun c => h.setBlock r c (c.block.store (8 * index) 8 value.toUInt64)

/-- The address of a block. It stays only while the cell is pinned. -/
def address (r : ObjRef) : Except DispatchError Nat := (h.get r).map (·.base)

/-- Of the blocks that start at an address or before it, the slot of the last. -/
def lastStart (address : Nat) : Option (Nat × Nat) :=
  h.starts.foldl (fun best e =>
    if e.1 ≤ address then
      match best with
      | some b => if b.1 < e.1 then some e else best
      | none => some e
    else best) none

def resolveAddress (address : Nat) : Option ObjRef :=
  match h.lastStart address with
  | none => none
  | some (_, i) =>
    match h.slots[i]? with
    | some ⟨g, some c⟩ => if c.contains address then some ⟨i, g⟩ else none
    | _ => none

/-- Keeps a cell in place until the guard is given back. Pins are counted in 32 bits. -/
def pin (r : ObjRef) : Except DispatchError (Guard × Heap) :=
  (h.get r).map fun (c : Cell) =>
    (⟨r, c.base, c.length⟩, { h.setCell r.index (some { c with pins := c.pins + 1 }) with
      wrapped := h.wrapped || c.pins + 1 == 0 })

def unpin (g : Guard) : Heap :=
  match h.cell? g.ref with
  | some c =>
    h.setCell g.ref.index (some { c with pins := if c.pins = 0 then 0 else c.pins - 1 })
  | none => h

def unpinAll (gs : List Guard) : Heap := gs.foldl unpin h

def isPinned (r : ObjRef) : Bool :=
  match h.cell? r with
  | some c => 0 < c.pins
  | none => false

def movable? (index : Nat) : Option Cell :=
  match h.slots[index]? with
  | some s => s.cell.filter fun c => c.pins = 0
  | none => none

def move (index : Nat) (c : Cell) (base : Nat) : Heap :=
  { h.setCell index (some { c with base }) with
    starts := (h.starts.erase c.base).set base index }

/-- Moves the block of every cell that is not pinned to the address given for its slot, slot by
slot. Tells how many moved. -/
def relocate (place : Nat → Nat) : Nat × Heap :=
  (List.range h.slots.length).foldl (fun (n, h) i =>
    match h.movable? i with
    | some c => (n + 1, h.move i c (place i))
    | none => (n, h)) (0, h)

def size : Nat := h.slots.length - h.free.length

def isEmpty : Bool := h.size == 0

/-- The cell whose block holds all of some bytes, and where in it they start. -/
def atAddress? (address width : Nat) : Option (ObjRef × Cell × Nat) :=
  match h.resolveAddress address with
  | none => none
  | some r =>
    match h.cell? r with
    | some c =>
      if address + width ≤ c.base + c.block.size then some (r, c, address - c.base) else none
    | none => none

/-- The number in some bytes of memory, all in one block. -/
def load? (address width : Nat) : Option UInt64 :=
  (h.atAddress? address width).map fun (_, c, offset) => c.block.load offset width

def store? (address width : Nat) (w : UInt64) : Option Heap :=
  (h.atAddress? address width).map fun (r, c, offset) =>
    h.setBlock r c (c.block.store offset width w)

theorem get_eq_ok_iff {r : ObjRef} {c : Cell} : h.get r = .ok c ↔ h.cell? r = some c := by
  unfold get
  cases h.cell? r <;> simp

@[simp] theorem length_setCell (i : Nat) (c : Option Cell) :
    (h.setCell i c).slots.length = h.slots.length := by simp [setCell]

theorem cell?_setCell_of_ne {i : Nat} {r : ObjRef} (c : Option Cell) (hi : i ≠ r.index) :
    (h.setCell i c).cell? r = h.cell? r := by
  simp [cell?, setCell, hi]

end Heap

end AccelHost
