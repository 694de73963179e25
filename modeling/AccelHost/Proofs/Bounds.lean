import AccelHost.Proofs.AddressMap
import AccelHost.Proofs.Marshalling
import AccelHost.Proofs.Storage

/-!
Bounds of accesses. A heap checks an index against the number of elements, and a native function is
told that number with the address; the block was sized when the cell was made, by a product computed
in 64 bits. The two agree, and every access stays within the block of its cell, exactly if the bytes
of all elements are a number of 64 bits. What a native function is told always is.
-/
namespace AccelHost

namespace ObjectKind

/-- Bytes of one element, which is a field slot if the cell is an instance. -/
def elementSize : ObjectKind → Nat
  | ofClass _ => 8
  | array k => k.size

end ObjectKind

namespace Cell

def bytes (c : Cell) : Nat := c.length * c.kind.elementSize

/-- The block has as many words as were computed for the elements. -/
def Measured (c : Cell) : Prop :=
  c.block.words = (Block.zeroed (Heap.byteSize c.length c.kind.elementSize)).words

variable {c c' : Cell}

theorem SameFrame.measured (hframe : c.SameFrame c') (hc : c.Measured) : c'.Measured := by
  rw [Measured, hframe.words, hframe.length, hframe.kind]
  exact hc

/-- The elements have room in a block that was measured for them exactly if the product did not
wrap, as no block takes all addresses. -/
theorem Measured.bytes_le_iff (hc : c.Measured) (hlt : c.block.size < UInt64.size) :
    c.bytes ≤ c.block.size ↔ c.bytes < UInt64.size := by
  refine ⟨fun hle => Nat.lt_of_le_of_lt hle hlt, fun hbytes => ?_⟩
  have hsize : c.block.size = (Block.zeroed (c.bytes % UInt64.size)).size :=
    congrArg (8 * ·) hc
  rw [hsize, Nat.mod_eq_of_lt hbytes]
  exact Block.le_size_zeroed c.bytes

end Cell

namespace Heap

variable {h h' : Heap} {r : ObjRef} {c : Cell} {i : Nat}

/-! ### Blocks keep their measure -/

/-- Every block was measured for the elements of its cell. -/
def Measured (h : Heap) : Prop := ∀ i c, h.cellAt i = some c → c.Measured

namespace Measured

theorem insert (hm : h.Measured) (hs : h.Sound) (hc : c.Measured) : (h.insert c).2.Measured :=
  forall_cells_of_put (fun _ => cellAt_insert hs) (fun _ hd => Option.some.inj hd ▸ hc) hm

theorem vacate {base : Nat} (hm : h.Measured) : (h.vacate i base).Measured :=
  forall_cells_of_put (fun _ => cellAt_vacate) (by simp) hm

theorem move {base : Nat} (hm : h.Measured) (hc : h.cellAt i = some c) :
    (h.move i c base).Measured :=
  forall_cells_of_put (fun _ => cellAt_move hc) (fun _ hd => Option.some.inj hd ▸ hm i c hc) hm

theorem replace {c' : Cell} {wrapped : Bool} (hm : h.Measured) (hc : h.cell? r = some c)
    (hframe : c.SameFrame c') : Measured { h.setCell r.index (some c') with wrapped } := by
  have hc' := hframe.measured (hm _ c (cell?_iff_cellAt.1 hc).2)
  exact forall_cells_of_put (fun _ => cellAt_replace hc) (fun _ hd => Option.some.inj hd ▸ hc') hm

theorem write (hm : h.Measured) (hw : h.Writes h') : h'.Measured := by
  obtain ⟨r, c, b, hc, hb, rfl⟩ := hw
  exact hm.replace hc ⟨rfl, rfl, rfl, hb⟩

theorem change {x : Except DispatchError Heap} (hm : h.Measured)
    (hx : ∀ h', x = .ok h' → h'.Measured) : (HeapRequest.change h x).2.Measured := by
  cases x with
  | error e => exact hm
  | ok h' => exact hx h' rfl

/-- A request lays blocks of the measure that is computed for them, and gives no other block another
size or other elements. -/
theorem perform (hm : h.Measured) (hs : h.Sound) (q : HeapRequest) :
    (h.perform q).2.Measured := by
  cases q with
  | newObject className fields base => exact hm.insert hs rfl
  | newArray k length base => exact hm.insert hs rfl
  | newArrayFrom k values base => exact hm.insert hs (Block.words_overwrite ..)
  | kind | arrayLength | readArray | readField => exact hm
  | free r =>
    refine hm.change fun h' hf => ?_
    obtain ⟨c, -, -, rfl⟩ := freeCell_eq_ok_iff.1 hf
    exact hm.vacate
  | writeArray k r values => exact hm.change fun h' hw => hm.write (writes_of_writeArray hw)
  | writeField r index value => exact hm.change fun h' hw => hm.write (writes_of_writeField hw)
  | pin r =>
    simp only [Heap.perform]
    cases hp : h.pin r with
    | error e => exact hm
    | ok pinned =>
      obtain ⟨g, h'⟩ := pinned
      obtain ⟨c, hc, -, rfl⟩ := exists_of_pin hp
      exact hm.replace hc ⟨rfl, rfl, rfl, rfl⟩
  | unpin g =>
    simp only [Heap.perform, unpin]
    cases hc : h.cell? g.ref with
    | none => exact hm
    | some c => exact hm.replace hc ⟨rfl, rfl, rfl, rfl⟩
  | relocate place => exact relocate_induction hm fun h i c hm hc _ => hm.move hc
  | poke address width word =>
    simp only [Heap.perform]
    cases hstore : h.store? address width word with
    | none => exact hm
    | some h' => exact hm.write (writes_of_store? hstore)

theorem run {qs : List HeapRequest} (hm : h.Measured) (hs : h.Sound) :
    (h.run qs).2.Measured := by
  induction qs generalizing h with
  | nil => exact hm
  | cons q qs ih => exact ih (hm.perform hs q) (hs.change (h.change_perform q))

end Measured

theorem measured_empty : Measured {} := fun i c hc => by simp [cellAt] at hc

/-! ### Accesses -/

/-- An element that a heap gives access to: a field slot that is read or written, or one of the
elements of an array that is read or of the first that are written. -/
inductive Accepts (h : Heap) (r : ObjRef) (i : Nat) : Prop where
  | readField {v : Int64} : h.readField r i = .ok v → Accepts h r i
  | writeField {v : Int64} {h' : Heap} : h.writeField r i v = .ok h' → Accepts h r i
  | readArray {k : ElemKind} {values : List k.Val} : h.readArray k r = .ok values →
      i < values.length → Accepts h r i
  | writeArray {k : ElemKind} {values : List k.Val} {h' : Heap} :
      h.writeArray k r values = .ok h' → i < values.length → Accepts h r i

/-- Some bytes lie in the block of a live cell, and none of them in that of another. -/
structure Inside (h : Heap) (r : ObjRef) (address width : Nat) : Prop where
  own : ∃ c, h.cell? r = some c ∧ c.base ≤ address ∧ address + width ≤ c.base + c.block.size
  others : ∀ r' c, h.cell? r' = some c → r' ≠ r → Apart address width c.base c.block.size

theorem accepts_iff : h.Accepts r i ↔ ∃ c, h.cell? r = some c ∧ i < c.length := by
  constructor
  · rintro (hread | hwrite | ⟨hread, hi⟩ | ⟨hwrite, hi⟩)
    · obtain ⟨c, -, hc, -, hi, -⟩ := readField_eq_ok_iff.1 hread
      exact ⟨c, hc, hi⟩
    · obtain ⟨c, -, hc, -, hi, -⟩ := writeField_eq_ok_iff.1 hwrite
      exact ⟨c, hc, hi⟩
    · obtain ⟨c, hc, -, rfl⟩ := readArray_eq_ok_iff.1 hread
      exact ⟨c, hc, by simpa using hi⟩
    · obtain ⟨c, hc, -, hle, -⟩ := writeArray_eq_ok_iff.1 hwrite
      exact ⟨c, hc, Nat.lt_of_lt_of_le hi hle⟩
  · rintro ⟨c, hc, hi⟩
    cases hk : c.kind with
    | ofClass className => exact .readField (readField_eq_ok_iff.2 ⟨c, className, hc, hk, hi, rfl⟩)
    | array k => exact .readArray (readArray_eq_ok_iff.2 ⟨c, hc, hk, rfl⟩) (by simpa using hi)

/-! ### Accesses of one cell -/

theorem Mapped.inside {offset width : Nat} (hm : h.Mapped) (hc : h.cell? r = some c)
    (hle : offset + width ≤ c.block.size) : h.Inside r (c.base + offset) width where
  own := ⟨c, hc, by omega, by omega⟩
  others r' d hd hne := by
    have hindex : r.index ≠ r'.index := fun hi => hne (eq_of_cell? hc hd hi).symm
    have hapart := hm.apart _ _ c d (cell?_iff_cellAt.1 hc).2 (cell?_iff_cellAt.1 hd).2 hindex
    unfold Apart at hapart ⊢
    omega

theorem Mapped.inside_iff (hm : h.Mapped) (hc : h.cell? r = some c) :
    (∀ i < c.length, h.Inside r (c.base + i * c.kind.elementSize) c.kind.elementSize) ↔
      c.bytes ≤ c.block.size := by
  have hend : ∀ i, i * c.kind.elementSize + c.kind.elementSize = (i + 1) * c.kind.elementSize :=
    fun i => (Nat.succ_mul ..).symm
  constructor
  · intro hinside
    cases hlength : c.length with
    | zero => simp [Cell.bytes, hlength]
    | succ n =>
      -- The last element ends where all elements end.
      obtain ⟨d, hd, -, hle⟩ := (hinside n (by omega)).own
      obtain rfl : c = d := Option.some.inj (hc.symm.trans hd)
      rw [Cell.bytes, hlength, ← hend]
      omega
  · intro hle i hi
    have hbytes : (i + 1) * c.kind.elementSize ≤ c.bytes := Nat.mul_le_mul_right _ hi
    exact hm.inside hc (by rw [hend]; omega)

/-! ### What a native function is told -/

theorem SameUnpinned.inside {address width : Nat} (hs : h.SameUnpinned h')
    (hi : h.Inside r address width) : h'.Inside r address width where
  own := by
    obtain ⟨c, hc, hle⟩ := hi.own
    obtain ⟨c', hc', -, -, hbase, hblock⟩ := hs.symm.cell? hc
    rw [hbase, hblock] at hle
    exact ⟨c', hc', hle⟩
  others r' c' hc' hne := by
    obtain ⟨c, hc, -, -, hbase, hblock⟩ := hs.cell? hc'
    rw [hbase, hblock]
    exact hi.others r' c hc hne

/-- A length that is handed over has 32 bits, so that the bytes of all elements have 64. -/
theorem Crosses.inside {k : ElemKind} {v : Value} {address : UInt64} {length : Int32}
    (hm : h.Mapped) (hmeasured : h.Measured)
    (hv : h.Crosses (.array k) v [.pointer address, .prim .int length]) :
    ∃ r, v = .ref (some r) ∧
      ∀ i : Nat, i < length.toInt → h.Inside r (address.toNat + i * k.size) k.size := by
  cases hv with
  | @array _ r c _ hc hk hlength =>
    have hcell := (cell?_iff_cellAt.1 hc).2
    obtain ⟨hpos, hsize, hend⟩ := hm.placed _ c hcell
    have hbytes : c.bytes < UInt64.size := by
      have hlt := length.toInt_lt
      have hle := k.size_le
      have hshort : c.length < 2 ^ 31 := by omega
      have hmul : c.length * k.size ≤ 2 ^ 31 * 8 := Nat.mul_le_mul (Nat.le_of_lt hshort) hle
      rw [Cell.bytes, hk]
      exact Nat.lt_of_le_of_lt hmul (by decide)
    have hroom := ((hmeasured _ c hcell).bytes_le_iff (by omega)).2 hbytes
    have haddress : (UInt64.ofNat c.base).toNat = c.base :=
      UInt64.toNat_ofNat_of_lt' (by omega)
    refine ⟨r, rfl, fun i hi => ?_⟩
    have hinside := (hm.inside_iff hc).2 hroom i (by omega)
    rw [hk] at hinside
    rwa [haddress]

/-- Accesses stay within blocks exactly as far as sizes do not wrap. Whatever was asked of a heap,
an allocator being known to give only what is free, the block of a live cell has room for its
elements, and all elements that the heap gives access to lie inside it, if and only if the bytes of
the elements are a number of 64 bits. Those that a native function is told of do so always. -/
theorem accesses_inside_iff {qs : List HeapRequest} (ha : Admits {} qs) :
    let h := (Heap.run {} qs).2
    (∀ r c, h.cell? r = some c →
      (c.bytes ≤ c.block.size ↔ c.bytes < UInt64.size) ∧
      ((∀ i, h.Accepts r i →
          h.Inside r (c.base + i * c.kind.elementSize) c.kind.elementSize) ↔
        c.bytes < UInt64.size)) ∧
    ∀ (p : CallPlan) args s, p.marshal h args = (none, s) →
      ∃ parts, s.args = parts.flatten ∧
        List.Forall₂ (fun kv part => h.Crosses kv.1 kv.2 part ∧
          ∀ k address length, kv.1 = .array k → part = [.pointer address, .prim .int length] →
            ∃ r, kv.2 = .ref (some r) ∧ ∀ i : Nat, i < length.toInt →
              s.heap.Inside r (address.toNat + i * k.size) k.size)
          (p.entry.convention.nativeParams.zip args) parts := by
  intro h
  have hm : h.Mapped := mapped_empty.run ha
  have hmeasured : h.Measured := measured_empty.run sound_empty
  refine ⟨fun r c hc => ?_, fun p args s hs => ?_⟩
  · have hcell := (cell?_iff_cellAt.1 hc).2
    obtain ⟨hpos, hsize, hend⟩ := hm.placed _ c hcell
    have hroom := (hmeasured _ c hcell).bytes_le_iff (by omega)
    refine ⟨hroom, ?_⟩
    rw [← hroom, ← hm.inside_iff hc]
    refine forall_congr' fun i => imp_congr_left ?_
    rw [accepts_iff]
    simp [hc]
  · obtain ⟨parts, hparts, hadds⟩ := Marshalled.adds_of_addAll hs
    refine ⟨parts, by simpa using hadds.args, hparts.imp fun kv part hv => ⟨hv, ?_⟩⟩
    intro k address length hk hpart
    rw [hk, hpart] at hv
    obtain ⟨r, hr, hinside⟩ := hv.inside hm hmeasured
    exact ⟨r, hr, fun i hi => hadds.heap.inside (hinside i hi)⟩

theorem accesses_inside_iff_swapping :
    Admits {} swapping ∧ ∀ i, (Heap.run {} swapping).2.Accepts ⟨0, 0⟩ i →
      (Heap.run {} swapping).2.Inside ⟨0, 0⟩ (96 + i * 8) 8 := by
  have ha : Admits {} swapping := by decide
  exact ⟨ha, ((accesses_inside_iff ha).1 ⟨0, 0⟩ _ rfl).2.2 (by decide)⟩

/-- An instance of so many fields that their bytes come out as none, and one right behind it. -/
def wrapping : List HeapRequest := [.newObject "Wide" (2 ^ 61) 64, .newObject "Box" 1 72]

/-- The second field of an instance is given access to where another instance has its first. -/
theorem second_field_outside_wrapping :
    let h := (Heap.run {} wrapping).2
    Admits {} wrapping ∧ h.address ⟨0, 0⟩ = .ok 64 ∧ h.readField ⟨0, 0⟩ 1 = .ok 0 ∧
      ¬ h.Inside ⟨0, 0⟩ (64 + 1 * 8) 8 ∧ h.resolveAddress (64 + 1 * 8) = some ⟨1, 0⟩ := by
  refine ⟨by decide, rfl, rfl, fun hinside => ?_, by decide⟩
  obtain ⟨c, hc, -, hle⟩ := hinside.own
  have hcell : ((Heap.run {} wrapping).2.cell? ⟨0, 0⟩).map (fun c => c.base + c.block.size) =
      some 72 := rfl
  rw [hc, Option.map_some, Option.some.injEq] at hcell
  omega

end Heap

end AccelHost
