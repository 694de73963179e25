import AccelHost.Proofs.HeapMoves
import AccelHost.Proofs.HeapSlots

/-!
Runs of requests to a heap. The allocator is whoever gives the addresses: for a new block, and for
every block that a collection moves. Nothing is known of it but that it gives out no room that is
taken.
-/
namespace AccelHost

/-- A request to a heap. A new block is told its address, and a collection the address that the
block of each slot moves to. -/
inductive HeapRequest where
  | newObject (className : String) (fields base : Nat)
  | newArray (k : ElemKind) (length base : Nat)
  | newArrayFrom (k : ElemKind) (values : List k.Val) (base : Nat)
  | free (r : ObjRef)
  | kind (r : ObjRef)
  | arrayLength (r : ObjRef)
  | readArray (k : ElemKind) (r : ObjRef)
  | writeArray (k : ElemKind) (r : ObjRef) (values : List k.Val)
  | readField (r : ObjRef) (index : Nat)
  | writeField (r : ObjRef) (index : Nat) (value : Int64)
  | pin (r : ObjRef)
  | unpin (g : Guard)
  | relocate (place : Nat → Nat)
  /-- Native code writes to an address. What is no block of the heap is none of its business. -/
  | poke (address width : Nat) (word : UInt64)

/-- What a request is answered with if it is granted. No address is told. -/
inductive HeapAnswer where
  | done
  | allocated (r : ObjRef)
  | kind (kind : ObjectKind)
  | count (n : Nat)
  | elements (k : ElemKind) (values : List k.Val)
  | field (value : Int64)
  | pinned (r : ObjRef) (length : Nat)
  | moved (n : Nat)
deriving DecidableEq

abbrev HeapReply := Except DispatchError HeapAnswer

namespace HeapRequest

section

variable {σ : Type}

def ask {α : Type} (s : σ) (x : Except DispatchError α) (answer : α → HeapAnswer) : HeapReply × σ :=
  (x.map answer, s)

def change (s : σ) : Except DispatchError σ → HeapReply × σ
  | .ok s' => (.ok .done, s')
  | .error e => (.error e, s)

/-- Requests one after another: what each is answered with, and the state after the last. -/
def run (perform : σ → HeapRequest → HeapReply × σ) (s : σ) : List HeapRequest → List HeapReply × σ
  | [] => ([], s)
  | q :: qs =>
    let (a, s) := perform s q
    let (as, s) := run perform s qs
    (a :: as, s)

end

/-- The reference that a request is about. A guard is never refused. -/
def target? : HeapRequest → Option ObjRef
  | free r | kind r | arrayLength r | readArray _ r | writeArray _ r _ | readField r _
  | writeField r _ _ | pin r => some r
  | newObject .. | newArray .. | newArrayFrom .. | unpin _ | relocate _ | poke .. => none

end HeapRequest

namespace Heap

open HeapRequest (ask change)

def perform (h : Heap) : HeapRequest → HeapReply × Heap
  | .newObject className fields base =>
    let (r, h') := h.newObject className fields base
    (.ok (.allocated r), h')
  | .newArray k length base =>
    let (r, h') := h.newArray k length base
    (.ok (.allocated r), h')
  | .newArrayFrom k values base =>
    let (r, h') := h.newArrayFrom k values base
    (.ok (.allocated r), h')
  | .free r => change h (h.freeCell r)
  | .kind r => ask h (h.kind r) .kind
  | .arrayLength r => ask h (h.arrayLength r) .count
  | .readArray k r => ask h (h.readArray k r) (.elements k)
  | .writeArray k r values => change h (h.writeArray k r values)
  | .readField r index => ask h (h.readField r index) .field
  | .writeField r index value => change h (h.writeField r index value)
  | .pin r =>
    match h.pin r with
    | .ok (g, h') => (.ok (.pinned g.ref g.length), h')
    | .error e => (.error e, h)
  | .unpin g => (.ok .done, h.unpin g)
  | .relocate place =>
    let (n, h') := h.relocate place
    (.ok (.moved n), h')
  | .poke address width word => (.ok .done, (h.store? address width word).getD h)

def run (h : Heap) (qs : List HeapRequest) : List HeapReply × Heap := HeapRequest.run perform h qs

theorem run_append (h : Heap) (before qs : List HeapRequest) :
    (h.run (before ++ qs)).2 = ((h.run before).2.run qs).2 := by
  induction before generalizing h with
  | nil => rfl
  | cons q before ih => exact ih (h.perform q).2

def freed? (h : Heap) : HeapRequest → Option Nat
  | .free r =>
    match h.freeCell r with
    | .ok _ => some r.index
    | .error _ => none
  | _ => none

def frees (i : Nat) : Heap → List HeapRequest → Nat
  | _, [] => 0
  | h, q :: qs => (if h.freed? q = some i then 1 else 0) + frees i (h.perform q).2 qs

/-! ### What an allocator may give -/

/-- Room for a block: not null, within the addresses, and apart from every live block. -/
def Vacant (h : Heap) (base size : Nat) : Prop :=
  0 < base ∧ base + size ≤ UInt64.size ∧
    ∀ s ∈ h.slots, ∀ c ∈ s.cell, Apart base size c.base c.block.size

instance (h : Heap) (base size : Nat) : Decidable (h.Vacant base size) :=
  inferInstanceAs (Decidable (_ ∧ _ ∧ _))

/-- Room for the blocks of some slots, each at its turn. The block that moves is still there then,
those that moved before it are no longer where they were. -/
def Rooms (place : Nat → Nat) : List Nat → Heap → Prop
  | [], _ => True
  | i :: is, h =>
    (∀ c ∈ h.movable? i, h.Vacant (place i) c.block.size) ∧ Rooms place is (h.moveSlot place i)

instance decidableRooms (place : Nat → Nat) : (is : List Nat) → (h : Heap) →
    Decidable (Rooms place is h)
  | [], _ => inferInstanceAs (Decidable True)
  | i :: is, h =>
    have := decidableRooms place is (h.moveSlot place i)
    inferInstanceAs (Decidable (_ ∧ _))

end Heap

/-- The addresses of a request are such as an allocator gives. -/
def HeapRequest.Fits (h : Heap) : HeapRequest → Prop
  | newObject _ fields base => h.Vacant base (Block.zeroed (Heap.byteSize fields 8)).size
  | newArray k length base => h.Vacant base (Block.zeroed (Heap.byteSize length k.size)).size
  | newArrayFrom k values base =>
    h.Vacant base (Block.zeroed (Heap.byteSize values.length k.size)).size
  | relocate place => Heap.Rooms place (List.range h.slots.length) h
  | _ => True

instance (h : Heap) (q : HeapRequest) : Decidable (q.Fits h) := by
  cases q <;> unfold HeapRequest.Fits <;> infer_instance

namespace Heap

/-- The addresses of all requests are such as an allocator gives at the time. -/
def Admits : Heap → List HeapRequest → Prop
  | _, [] => True
  | h, q :: qs => q.Fits h ∧ Admits (h.perform q).2 qs

instance decidableAdmits : (h : Heap) → (qs : List HeapRequest) → Decidable (h.Admits qs)
  | _, [] => inferInstanceAs (Decidable True)
  | h, q :: qs =>
    have := decidableAdmits (h.perform q).2 qs
    inferInstanceAs (Decidable (_ ∧ _))

variable {h : Heap} {r : ObjRef} {c : Cell}

theorem Vacant.apart {base size i : Nat} (hv : h.Vacant base size) (hc : h.cellAt i = some c) :
    Apart base size c.base c.block.size := by
  obtain ⟨s, hs, hcell⟩ := Option.bind_eq_some_iff.1 hc
  exact hv.2.2 s (List.mem_of_getElem? hs) c hcell

/-! ### What a request does to a heap -/

end Heap

/-- Two cells are alike but for their pins and what is in their blocks. -/
structure Cell.SameFrame (c c' : Cell) : Prop where
  kind : c'.kind = c.kind
  length : c'.length = c.length
  base : c'.base = c.base
  words : c'.block.words = c.block.words

namespace Heap

/-- The changes of a heap that requests come down to, and the slot that is freed if one is. Where
blocks are laid, there is room if the allocator keeps to what it may give. -/
inductive Change (h : Heap) (fits : Prop) : Option Nat → Heap → Prop where
  | same : Change h fits none h
  | insert {c : Cell} : 0 < c.block.size → (fits → h.Vacant c.base c.block.size) →
      Change h fits none (h.insert c).2
  | free {r : ObjRef} {c : Cell} : h.cell? r = some c →
      Change h fits (some r.index) (h.vacate r.index c.base)
  | replace {r : ObjRef} {c c' : Cell} {wrapped : Bool} : h.cell? r = some c → c.SameFrame c' →
      Change h fits none { h.setCell r.index (some c') with wrapped }
  | relocate {place : Nat → Nat} : (fits → Rooms place (List.range h.slots.length) h) →
      Change h fits none (h.relocate place).2

variable {h : Heap} {fits : Prop} {r : ObjRef} {c : Cell}

theorem Change.setBlock {b : Block} (hc : h.cell? r = some c) (hb : b.words = c.block.words) :
    h.Change fits none (h.setBlock r c b) :=
  .replace hc ⟨rfl, rfl, rfl, hb⟩

theorem change_pin : h.Change fits none (h.perform (.pin r)).2 := by
  cases hc : h.cell? r with
  | none =>
    simp only [perform, pin_of_none hc]
    exact .same
  | some c =>
    simp only [perform, pin_of_some hc]
    exact .replace hc ⟨rfl, rfl, rfl, rfl⟩

theorem change_unpin {g : Guard} : h.Change fits none (h.unpin g) := by
  unfold unpin
  cases hc : h.cell? g.ref with
  | none => exact .same
  | some c => exact .replace hc ⟨rfl, rfl, rfl, rfl⟩

/-- Every request comes down to one change. -/
theorem change_perform (h : Heap) (q : HeapRequest) :
    h.Change (q.Fits h) (h.freed? q) (h.perform q).2 := by
  cases q with
  | newObject className fields base => exact .insert (Block.size_zeroed_pos _) id
  | newArray k length base => exact .insert (Block.size_zeroed_pos _) id
  | newArrayFrom k values base => exact .insert (Block.size_zeroed_pos _) id
  | kind | arrayLength | readArray | readField => exact .same
  | pin r => exact change_pin
  | unpin g => exact change_unpin
  | relocate place => exact .relocate id
  | free r =>
    simp only [freed?, perform]
    cases hf : h.freeCell r with
    | error e => exact .same
    | ok h' =>
      obtain ⟨c, hc, _, rfl⟩ := freeCell_eq_ok_iff.1 hf
      exact .free hc
  | writeArray k r values =>
    simp only [perform]
    cases hw : h.writeArray k r values with
    | error e => exact .same
    | ok h' =>
      obtain ⟨c, hc, _, _, rfl⟩ := writeArray_eq_ok_iff.1 hw
      exact .setBlock hc (Block.words_overwrite ..)
  | writeField r index value =>
    simp only [perform]
    cases hw : h.writeField r index value with
    | error e => exact .same
    | ok h' =>
      obtain ⟨c, _, hc, _, _, rfl⟩ := writeField_eq_ok_iff.1 hw
      exact .setBlock hc (Block.words_store ..)
  | poke address width word =>
    simp only [perform]
    cases hs : h.store? address width word with
    | none => exact .same
    | some h' =>
      obtain ⟨r, c, offset, hc, rfl⟩ := exists_of_store? hs
      exact .setBlock hc (Block.words_store ..)

/-! ### What a change does to the slots -/

theorem cellAt_replace {c' : Cell} {wrapped : Bool} {j : Nat} (hc : h.cell? r = some c) :
    cellAt { h.setCell r.index (some c') with wrapped } j =
      if j = r.index then some c' else h.cellAt j :=
  cellAt_setCell (lt_of_cellAt (cell?_iff_cellAt.1 hc).2)

theorem Sound.change {h' : Heap} {f : Option Nat} (hs : h.Sound) (hc : h.Change fits f h') :
    h'.Sound := by
  cases hc with
  | same => exact hs
  | insert => exact hs.insert
  | free hc => exact hs.vacate (cell?_iff_cellAt.1 hc).2
  | @replace r c c' wrapped hc _ =>
    have hset : (h.setCell r.index (some c')).Sound := hs.setCell (cell?_iff_cellAt.1 hc).2
    exact ⟨hset.empty, hset.nodup⟩
  | relocate => exact relocate_induction hs fun h i c hs hc _ => hs.move hc

theorem sound_empty : Sound {} := ⟨by simp, by simp⟩

theorem Sound.run {qs : List HeapRequest} (hs : h.Sound) : (h.run qs).2.Sound := by
  induction qs generalizing h with
  | nil => exact hs
  | cons q qs ih =>
    have hstep := hs.change (h.change_perform q)
    exact ih hstep

end Heap

end AccelHost
