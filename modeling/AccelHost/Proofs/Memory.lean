import AccelHost.Proofs.Lending
import AccelHost.Proofs.Storage
import AccelHost.Proofs.Unpinning
import Mathlib.Data.Nat.Digits.Defs

/-!
Memory by reference. What is stored in a heap is told without addresses and without pins: for each
live reference the kind of its cell, its length and its bytes. What can be read of a cell is what
its bytes show, the lowest first. Every operation on the heap is told by what it leaves stored, and
collections, pins and questions leave everything as it is.
-/
namespace AccelHost

/-! ### Bytes -/

namespace Block

variable {b : Block} {k : ElemKind}

def bytes (b : Block) (offset n : Nat) : List Nat :=
  (List.range n).map fun j => (b.byte (offset + j)).toNat

theorem bytes_succ {offset n : Nat} :
    b.bytes offset (n + 1) = (b.byte offset).toNat :: b.bytes (offset + 1) n := by
  simp only [bytes, List.range_succ_eq_map, List.map_cons, List.map_map, Nat.add_zero]
  refine congrArg _ (List.map_congr_left fun j _ => ?_)
  simp only [Function.comp_apply, Nat.succ_eq_add_one, Nat.add_assoc, Nat.add_comm 1]

/-- So many bytes are the digits of a number with so many bits. -/
theorem ofDigits_bytes_lt {offset n : Nat} :
    Nat.ofDigits 256 (b.bytes offset n) < 2 ^ (8 * n) := by
  have hbyte : ∀ x ∈ b.bytes offset n, x < 256 := fun x hx => by
    obtain ⟨j, _, rfl⟩ := List.mem_map.1 hx
    exact (b.byte (offset + j)).toNat_lt
  have hlt := Nat.ofDigits_lt_base_pow_length (by decide) hbyte
  rw [bytes, List.length_map, List.length_range, ← bytes] at hlt
  rwa [Nat.pow_mul]

theorem toNat_load {offset n : Nat} (hn : n ≤ 8) :
    (b.load offset n).toNat = Nat.ofDigits 256 (b.bytes offset n) := by
  unfold load
  induction n generalizing offset with
  | zero => simp [littleEndian, bytes]
  | succ n ih =>
    have hrest : (littleEndian b.byte (offset + 1) n).toNat =
        Nat.ofDigits 256 (b.bytes (offset + 1) n) := ih (by omega)
    have hlt : (littleEndian b.byte (offset + 1) n).toNat < 2 ^ (8 * n) := by
      rw [hrest]
      exact ofDigits_bytes_lt
    rw [toNat_littleEndian_succ (by omega) hlt, hrest, bytes_succ, Nat.ofDigits_cons]

end Block

namespace ElemKind

/-- The value of a kind that some bytes show: a boolean is true just if its byte is not zero, and
the bits of any other value are the number with the bytes as its digits, the lowest first. -/
def Shows : (k : ElemKind) → List Nat → k.Val → Prop
  | .boolean, bytes, v => v = true ↔ bytes ≠ [0]
  | k, bytes, v => (k.toWord v).toNat = Nat.ofDigits 256 bytes

theorem toNat_toWord_ofWord {k : ElemKind} (hk : k ≠ .boolean) (w : UInt64) :
    (k.toWord (k.ofWord w)).toNat = w.toNat % 2 ^ (8 * k.size) := by
  cases k
  case boolean => exact absurd rfl hk
  all_goals simp [toWord, ofWord, size]

end ElemKind

theorem Block.shows_element {b : Block} {k : ElemKind} {i : Nat} :
    k.Shows (b.bytes (i * k.size) k.size) (b.element k i) := by
  by_cases hk : k = .boolean
  · subst hk
    have hload : b.load (i * 1) 1 = (b.byte (i * 1)).toUInt64 := by simp [load, littleEndian]
    have hsize : ElemKind.size .boolean = 1 := rfl
    rw [element, hsize, hload]
    simp [ElemKind.Shows, ElemKind.ofWord, bytes, ← UInt8.toNat_inj]
  · have hnat : (k.toWord (b.element k i)).toNat =
        Nat.ofDigits 256 (b.bytes (i * k.size) k.size) := by
      rw [element, ElemKind.toNat_toWord_ofWord hk, toNat_load k.size_le]
      exact Nat.mod_eq_of_lt ofDigits_bytes_lt
    cases k
    case boolean => exact absurd rfl hk
    all_goals exact hnat

/-! ### What is stored -/

/-- What is stored in a cell: its kind, its length and its block, but neither where that lies nor
how often it is pinned. -/
def Cell.stored (c : Cell) : Cell := { c with base := 0, pins := 0 }

abbrev Memory := ObjRef → Option Cell

namespace Memory

variable (μ : Memory)

def put (r : ObjRef) (o : Option Cell) : Memory := fun r' => if r' = r then o else μ r'

/-- Memory with the block of a reference changed, if there is one. -/
def write (r : ObjRef) (f : Block → Block) : Memory :=
  μ.put r ((μ r).map fun c => { c with block := f c.block })

def allot (kind : ObjectKind) (length : Nat) (block : Block) : Outcome → Memory
  | .ref r => μ.put r (some { kind, length, block, base := 0 })
  | _ => μ

end Memory

namespace Heap

def memory (h : Heap) : Memory := fun r => (h.cell? r).map Cell.stored

variable {h h' : Heap} {r : ObjRef} {c : Cell}

theorem memory_of_some (hc : h.cell? r = some c) : h.memory r = some c.stored := by
  rw [memory, hc, Option.map_some]

theorem readArray_of_memory {k : ElemKind} (hm : h.memory r = some c) (hk : c.kind = .array k) :
    h.readArray k r = .ok (c.block.elements k c.length) := by
  obtain ⟨d, hd, rfl⟩ := Option.map_eq_some_iff.1 hm
  exact readArray_eq_ok_iff.2 ⟨d, hd, hk, rfl⟩

theorem readField_of_memory {className : String} {i : Nat} (hm : h.memory r = some c)
    (hk : c.kind = .ofClass className) (hi : i < c.length) :
    h.readField r i = .ok (c.block.element .long i) := by
  obtain ⟨d, hd, rfl⟩ := Option.map_eq_some_iff.1 hm
  exact readField_eq_ok_iff.2 ⟨d, className, hd, hk, hi, rfl⟩

/-! ### What changes of a heap leave stored -/

theorem memory_of_sameUnpinned (hs : h.SameUnpinned h') : h'.memory = h.memory := by
  funext r
  have hstored : ∀ o : Option Cell, (o.map Cell.unpinned).map Cell.stored = o.map Cell.stored :=
    fun o => by cases o <;> rfl
  rw [memory, memory, ← hstored, hs r, hstored]

theorem memory_pin {g : Guard} (hp : h.pin r = .ok (g, h')) : h'.memory = h.memory :=
  memory_of_sameUnpinned (sameUnpinned_of_pin hp).1

theorem memory_unpin (g : Guard) : (h.unpin g).memory = h.memory := by
  funext r
  rw [memory, memory, cell?_unpin]
  split
  · cases h.cell? r <;> rfl
  · rfl

theorem memory_unpinAll (gs : List Guard) : (h.unpinAll gs).memory = h.memory := by
  induction gs generalizing h with
  | nil => rfl
  | cons g gs ih => exact ih.trans (memory_unpin g)

theorem memory_relocate {place : Nat → Nat} : (h.relocate place).2.memory = h.memory := by
  funext r
  rw [memory, memory, cell?_relocate]
  cases h.cell? r with
  | none => rfl
  | some c =>
    simp only [Option.map_some, movedCell]
    split <;> rfl

theorem memory_setBlock (hc : h.cell? r = some c) (f : Block → Block) :
    (h.setBlock r c (f c.block)).memory = h.memory.write r f := by
  funext r'
  rw [memory, setBlock, cell?_setCell hc, Memory.write, Memory.put, memory_of_some hc]
  split <;> rfl

theorem memory_insert (hs : h.Sound) :
    (h.insert c).2.memory = h.memory.put (h.insert c).1 (some c.stored) := by
  funext r'
  rw [memory, cell?_insert hs, Memory.put]
  split <;> rfl

theorem memory_freeCell (hf : h.freeCell r = .ok h') : h'.memory = h.memory.put r none := by
  obtain ⟨c, hc, _, rfl⟩ := freeCell_eq_ok_iff.1 hf
  funext r'
  rw [memory, cell?_vacate hc, Memory.put]
  split <;> rfl

end Heap

/-! ### What operations leave stored -/

namespace HeapOp

/-- What is stored after an operation was granted, with the names that objects had before it. -/
def granted (names : Keyed Label ObjRef) (μ : Memory) (outcome : Outcome) : HeapOp → Memory
  | newObject className fields _ =>
    μ.allot (.ofClass className) fields (Block.zeroed (Heap.byteSize fields 8)) outcome
  | newArray k length _ =>
    μ.allot (.array k) length (Block.zeroed (Heap.byteSize length k.size)) outcome
  | newArrayFrom k values _ =>
    μ.allot (.array k) values.length
      ((Block.zeroed (Heap.byteSize values.length k.size)).overwrite k values) outcome
  | free obj => (names.get? obj).elim μ fun r => μ.put r none
  | write k obj values => (names.get? obj).elim μ fun r => μ.write r (·.overwrite k values)
  | writeField obj index value =>
    (names.get? obj).elim μ fun r => μ.write r (·.store (8 * index) 8 value.toUInt64)
  | _ => μ

/-- What is stored after an operation: as before, if it was refused. -/
def leaves (names : Keyed Label ObjRef) (μ : Memory) (op : HeapOp) : Reply → Memory
  | .ok outcome => op.granted names μ outcome
  | .error _ => μ

end HeapOp

namespace Host

variable {h : Host} {obj : Label}

theorem memory_withObject {f : ObjRef → Except DispatchError (Outcome × Host)}
    (hf : ∀ r outcome h', f r = .ok (outcome, h') → h'.heap.memory = h.heap.memory) :
    (h.withObject obj f).2.heap.memory = h.heap.memory := by
  unfold withObject
  split
  · rfl
  · split
    · rename_i hr
      exact hf _ _ _ hr
    · rfl

theorem memory_askObject {f : ObjRef → Except DispatchError Outcome} :
    (h.askObject obj f).2.heap.memory = h.heap.memory := by
  refine memory_withObject fun r outcome h' hr => ?_
  obtain ⟨_, _, ha⟩ := exists_of_map_eq_ok hr
  cases ha
  rfl

theorem memory_changeObject {op : HeapOp} {f : ObjRef → Except DispatchError Heap}
    {after : ObjRef → Memory}
    (hgranted : ∀ outcome, op.granted h.objects h.heap.memory outcome =
      (h.objects.get? obj).elim h.heap.memory after)
    (hf : ∀ r heap, f r = .ok heap → heap.memory = after r) :
    (h.changeObject obj f).2.heap.memory =
      op.leaves h.objects h.heap.memory (h.changeObject obj f).1 := by
  unfold changeObject withObject
  cases hobj : h.objects.get? obj with
  | none => rfl
  | some r =>
    cases hr : f r with
    | error e => simp only [hr, Except.map, HeapOp.leaves]
    | ok heap =>
      simp only [hr, Except.map, HeapOp.leaves, hgranted, hobj, Option.elim, hf r heap hr]

theorem memory_keepGuard (name : Label) (g : Guard) :
    (h.keepGuard name g).heap.memory = h.heap.memory := by
  unfold keepGuard
  cases h.guards.get? name with
  | none => rfl
  | some old => exact Heap.memory_unpin old

end Host

/-- Every operation on the heap leaves stored what it should. -/
theorem HeapOp.memory_perform {h : Host} (hs : h.heap.Sound) (op : HeapOp) :
    (op.perform h).2.heap.memory = op.leaves h.objects h.heap.memory (op.perform h).1 := by
  have hkept (hgranted : ∀ outcome, op.granted h.objects h.heap.memory outcome = h.heap.memory)
      (hsame : (op.perform h).2.heap.memory = h.heap.memory) :
      (op.perform h).2.heap.memory = op.leaves h.objects h.heap.memory (op.perform h).1 := by
    cases hreply : (op.perform h).1 with
    | ok outcome => exact hsame.trans (hgranted outcome).symm
    | error e => exact hsame
  cases op with
  | newObject | newArray | newArrayFrom => exact Heap.memory_insert hs
  | free obj =>
    exact Host.memory_changeObject (fun _ => rfl) fun r heap hf => Heap.memory_freeCell hf
  | write k obj values =>
    refine Host.memory_changeObject (fun _ => rfl) fun r heap hf => ?_
    obtain ⟨c, hc, _, _, rfl⟩ := Heap.writeArray_eq_ok_iff.1 hf
    exact Heap.memory_setBlock hc (·.overwrite k values)
  | writeField obj index value =>
    refine Host.memory_changeObject (fun _ => rfl) fun r heap hf => ?_
    obtain ⟨c, _, hc, _, _, rfl⟩ := Heap.writeField_eq_ok_iff.1 hf
    exact Heap.memory_setBlock hc (·.store (8 * index) 8 value.toUInt64)
  | kind | arrayLength | read | readField | resolveObject | isPinned | display =>
    exact hkept (fun _ => rfl) Host.memory_askObject
  | «foreign» | resolveAddress | size => exact hkept (fun _ => rfl) rfl
  | mark obj =>
    refine hkept (fun _ => rfl) (Host.memory_withObject fun r outcome h' hr => ?_)
    obtain ⟨_, _, ha⟩ := exists_of_map_eq_ok hr
    cases ha
    rfl
  | pin obj name =>
    refine hkept (fun _ => rfl) (Host.memory_withObject fun r outcome h' hr => ?_)
    obtain ⟨⟨g, heap⟩, hp, ha⟩ := exists_of_map_eq_ok hr
    cases ha
    exact (Host.memory_keepGuard name g).trans (Heap.memory_pin hp)
  | unpin name =>
    refine hkept (fun _ => rfl) ?_
    simp only [perform]
    cases h.guards.get? name with
    | none => rfl
    | some g => exact Heap.memory_unpin g
  | relocate => exact hkept (fun _ => rfl) Heap.memory_relocate

/-! ### Work that leaves the heap alone -/

def Work.SparesHeap {α : Type} (w : Work α) : Prop := ∀ m, (w.after m).host.heap = m.host.heap

namespace Work.SparesHeap

variable {α β : Type} {w : Work α} {f : α → Work β}

theorem pure {a : α} : (Pure.pure a : Work α).SparesHeap := fun _ => rfl

theorem bind (h : w.SparesHeap) (hf : ∀ a, (f a).SparesHeap) : (w >>= f).SparesHeap :=
  fun m => (hf _ _).trans (h m)

theorem get : (MonadState.get : Work Machine).SparesHeap := fun _ => rfl

theorem host : Work.host.SparesHeap := fun _ => rfl

theorem modifyHost {g : Host → Host} (hg : ∀ h, (g h).heap = h.heap) :
    (Work.modifyHost g).SparesHeap := fun m => hg m.host

theorem fresh : Work.fresh.SparesHeap := fun _ => rfl

theorem freshHandle : Work.freshHandle.SparesHeap := fun _ => rfl

end Work.SparesHeap

namespace RegistryOp

open Work.SparesHeap

theorem declare_sparesHeap (text : String) : (declare text).SparesHeap := by
  unfold declare
  split
  · exact pure
  · refine bind get fun m => bind host fun h => ?_
    split
    · exact pure
    · refine bind freshHandle fun _ => bind (modifyHost fun _ => rfl) fun _ => ?_
      split <;> exact pure

theorem batch_sparesHeap (unit : String) (specs : List EntrySpec) :
    (batch unit specs).SparesHeap := by
  induction specs with
  | nil => exact pure
  | cons s rest ih =>
    refine bind fresh fun _ => ?_
    split
    · exact pure
    · refine bind ih fun _ => ?_
      split <;> exact pure

theorem perform_sparesHeap (op : RegistryOp) : op.perform.SparesHeap := by
  cases op with
  | register text => exact declare_sparesHeap text
  | registerEntries choice specs =>
    refine bind host fun _ => ?_
    split
    · exact pure
    · refine bind (batch_sparesHeap _ specs) fun _ => ?_
      split
      · exact pure
      · refine bind host fun _ => ?_
        split
        · exact pure
        · exact bind (modifyHost fun _ => rfl) fun _ => pure
  | units | find => exact bind host fun _ => pure
  | snapshot => exact bind fresh fun _ => bind (modifyHost fun _ => rfl) fun _ => pure

end RegistryOp

end AccelHost
