import AccelHost.Proofs.Lending
import AccelHost.Proofs.Unpinning

/-!
Heaps but for their places. Two heaps may have the same cells and yet lay their blocks at different
addresses. What is asked of them by reference is the same then, what is changed leaves them the same
but for places, and a collection changes nothing else.
-/
namespace AccelHost

def Cell.unplaced (c : Cell) : Cell := { c with base := 0 }

def Slot.unplaced (s : Slot) : Slot := { s with cell := s.cell.map Cell.unplaced }

def Guard.unplaced (g : Guard) : Guard := { g with base := 0 }

theorem Cell.unplaced_eq_iff {c c' : Cell} :
    c'.unplaced = c.unplaced ↔ c' = { c with base := c'.base } := by
  obtain ⟨kind, length, block, base, pins⟩ := c
  obtain ⟨kind', length', block', base', pins'⟩ := c'
  simp [Cell.unplaced]

namespace Heap

def unplaced (h : Heap) : Heap := { h with slots := h.slots.map Slot.unplaced, starts := [] }

/-- Two heaps are the same but for the places of their blocks. -/
def Elsewhere (h h' : Heap) : Prop := h'.unplaced = h.unplaced

variable {h h' : Heap} {r : ObjRef} {c : Cell} {i : Nat}

/-! ### What is asked -/

theorem cell?_unplaced : h.unplaced.cell? r = (h.cell? r).map Cell.unplaced := by
  unfold cell? unplaced
  rw [List.getElem?_map]
  cases h.slots[r.index]? with
  | none => rfl
  | some s => by_cases hg : s.generation = r.generation <;> simp [Slot.unplaced, hg]

theorem get_unplaced : h.unplaced.get r = (h.get r).map Cell.unplaced := by
  unfold get
  rw [cell?_unplaced]
  cases h.cell? r <;> rfl

theorem kind_unplaced : h.unplaced.kind r = h.kind r := by
  unfold kind
  rw [get_unplaced]
  cases h.get r <;> rfl

theorem arrayLength_unplaced : h.unplaced.arrayLength r = h.arrayLength r := by
  unfold arrayLength
  rw [get_unplaced]
  cases h.get r <;> rfl

theorem arrayCell_unplaced {k : ElemKind} :
    h.unplaced.arrayCell k r = (h.arrayCell k r).map Cell.unplaced := by
  unfold arrayCell
  rw [get_unplaced]
  cases h.get r with
  | error e => rfl
  | ok c => by_cases hk : c.kind = .array k <;> simp [Except.map, Cell.unplaced, hk]

theorem readArray_unplaced {k : ElemKind} : h.unplaced.readArray k r = h.readArray k r := by
  unfold readArray
  rw [arrayCell_unplaced]
  cases h.arrayCell k r <;> rfl

theorem fieldCell_unplaced : h.unplaced.fieldCell r i = (h.fieldCell r i).map Cell.unplaced := by
  unfold fieldCell
  rw [get_unplaced]
  cases h.get r with
  | error e => rfl
  | ok c =>
    obtain ⟨kind, length, block, base, pins⟩ := c
    cases kind with
    | array k => rfl
    | ofClass name => by_cases hi : i < length <;> simp [Except.map, Cell.unplaced, hi]

theorem readField_unplaced : h.unplaced.readField r i = h.readField r i := by
  unfold readField
  rw [fieldCell_unplaced]
  cases h.fieldCell r i <;> rfl

theorem isPinned_unplaced : h.unplaced.isPinned r = h.isPinned r := by
  unfold isPinned
  rw [cell?_unplaced]
  cases h.cell? r <;> rfl

theorem size_unplaced : h.unplaced.size = h.size := by simp [size, unplaced]

theorem movable?_unplaced : h.unplaced.movable? i = (h.movable? i).map Cell.unplaced := by
  unfold movable? unplaced
  rw [List.getElem?_map]
  cases h.slots[i]? with
  | none => rfl
  | some s =>
    cases hs : s.cell with
    | none => simp [Slot.unplaced, hs]
    | some c =>
      by_cases hp : c.pins = 0 <;> simp [Slot.unplaced, hs, Cell.unplaced, Option.filter, hp]

/-! ### What is changed -/

theorem map_unplaced_modify {g g' : Slot → Slot} (slots : List Slot)
    (hg : ∀ s, (g s).unplaced = g' s.unplaced) :
    (slots.modify i g).map Slot.unplaced = (slots.map Slot.unplaced).modify i g' := by
  refine List.ext_getElem? fun j => ?_
  rw [List.getElem?_map, List.getElem?_modify, List.getElem?_modify, List.getElem?_map]
  cases slots[j]? with
  | none => rfl
  | some s =>
    by_cases hj : i = j
    · simp [hj, hg]
    · simp [hj]

theorem unplaced_setCell {o : Option Cell} :
    (h.setCell i o).unplaced = h.unplaced.setCell i (o.map Cell.unplaced) := by
  have hslots : (h.setCell i o).slots.map Slot.unplaced =
      (h.unplaced.setCell i (o.map Cell.unplaced)).slots := map_unplaced_modify h.slots fun _ => rfl
  unfold unplaced at hslots ⊢
  rw [hslots]
  rfl

theorem unplaced_setBlock {b : Block} :
    (h.setBlock r c b).unplaced = h.unplaced.setBlock r c.unplaced b := unplaced_setCell

theorem freeCell_unplaced : h.unplaced.freeCell r = (h.freeCell r).map unplaced := by
  unfold freeCell
  rw [get_unplaced]
  cases h.get r with
  | error e => rfl
  | ok c =>
    by_cases hp : 0 < c.pins
    · simp [Except.map, Cell.unplaced, hp]
    · have hslots : (h.slots.modify r.index fun s => ⟨s.generation + 1, none⟩).map Slot.unplaced =
          h.unplaced.slots.modify r.index fun s => ⟨s.generation + 1, none⟩ :=
        map_unplaced_modify h.slots fun _ => rfl
      simp only [Except.map, Cell.unplaced, hp, ↓reduceIte, Except.ok.injEq]
      exact congrArg (fun slots : List Slot =>
        ({ slots, free := r.index :: h.free, wrapped := h.wrapped } : Heap)) hslots.symm

theorem writeArray_unplaced {k : ElemKind} {values : List k.Val} :
    h.unplaced.writeArray k r values = (h.writeArray k r values).map unplaced := by
  unfold writeArray
  rw [arrayCell_unplaced]
  cases h.arrayCell k r with
  | error e => rfl
  | ok c =>
    by_cases hl : c.length < values.length
    · simp [Except.map, Cell.unplaced, hl]
    · simp only [Except.map, hl, ↓reduceIte, unplaced_setBlock]
      rw [if_neg (by exact hl)]
      rfl

theorem writeField_unplaced {v : Int64} :
    h.unplaced.writeField r i v = (h.writeField r i v).map unplaced := by
  unfold writeField
  rw [fieldCell_unplaced]
  cases h.fieldCell r i with
  | error e => rfl
  | ok c =>
    simp only [Except.map, unplaced_setBlock]
    rfl

theorem pin_unplaced : h.unplaced.pin r =
    (h.pin r).map fun pinned => (pinned.1.unplaced, pinned.2.unplaced) := by
  cases hc : h.cell? r with
  | none =>
    rw [pin_of_none hc, pin_of_none (by rw [cell?_unplaced, hc]; rfl)]
    rfl
  | some c =>
    have hc' : h.unplaced.cell? r = some c.unplaced := by rw [cell?_unplaced, hc]; rfl
    have hset : (h.setCell r.index (some { c with pins := c.pins + 1 })).unplaced =
        h.unplaced.setCell r.index (some { c.unplaced with pins := c.pins + 1 }) :=
      unplaced_setCell
    rw [pin_of_some hc, pin_of_some hc', Except.map]
    exact congrArg (fun heap : Heap => Except.ok ((⟨r, 0, c.length⟩ : Guard),
      { heap with wrapped := h.wrapped || c.pins + 1 == 0 })) hset.symm

theorem unpin_unplaced {g : Guard} : (h.unpin g).unplaced = h.unplaced.unpin g.unplaced := by
  have href : g.unplaced.ref = g.ref := rfl
  unfold unpin
  rw [href, cell?_unplaced]
  cases h.cell? g.ref with
  | none => rfl
  | some c => exact unplaced_setCell

theorem unpinAll_unplaced {gs : List Guard} :
    (h.unpinAll gs).unplaced = h.unplaced.unpinAll (gs.map Guard.unplaced) := by
  induction gs generalizing h with
  | nil => rfl
  | cons g gs ih =>
    have hrest := ih (h := h.unpin g)
    rwa [unpin_unplaced] at hrest

/-! ### Two heaps -/

namespace Elsewhere

theorem slots (he : h.Elsewhere h') : h'.slots.map Slot.unplaced = h.slots.map Slot.unplaced :=
  congrArg Heap.slots he

theorem free (he : h.Elsewhere h') : h'.free = h.free := by
  have hfree : h'.unplaced.free = h.unplaced.free := by rw [he]
  exact hfree

theorem wrapped (he : h.Elsewhere h') : h'.wrapped = h.wrapped := by
  have hwrapped : h'.unplaced.wrapped = h.unplaced.wrapped := by rw [he]
  exact hwrapped

theorem length (he : h.Elsewhere h') : h'.slots.length = h.slots.length := by
  simpa using congrArg List.length he.slots

theorem of_slots (hs : h'.slots.map Slot.unplaced = h.slots.map Slot.unplaced)
    (hf : h'.free = h.free) (hw : h'.wrapped = h.wrapped) : h.Elsewhere h' := by
  unfold Elsewhere unplaced
  rw [hs, hf, hw]

theorem trans {h'' : Heap} (he : h.Elsewhere h') (he' : h'.Elsewhere h'') : h.Elsewhere h'' :=
  Eq.trans he' he

theorem same {α : Type} {f : Heap → α} (hf : ∀ h, f h.unplaced = f h) (he : h.Elsewhere h') :
    f h' = f h := by rw [← hf h', he, hf h]

theorem cell? (he : h.Elsewhere h') (hc : h.cell? r = some c) :
    ∃ base, h'.cell? r = some { c with base } := by
  have hr := cell?_unplaced (h := h') (r := r)
  rw [he, cell?_unplaced, hc] at hr
  obtain ⟨c', hc', hsame⟩ := Option.map_eq_some_iff.1 hr.symm
  exact ⟨c'.base, by rw [hc', Cell.unplaced_eq_iff.1 hsame]⟩

theorem insert {c' : Cell} (he : h.Elsewhere h') (hc : c'.unplaced = c.unplaced) :
    (h'.insert c').1 = (h.insert c).1 ∧ (h.insert c).2.Elsewhere (h'.insert c').2 := by
  unfold Heap.insert
  rw [he.free]
  cases h.free with
  | nil =>
    refine ⟨by rw [he.length], .of_slots ?_ rfl he.wrapped⟩
    simp [he.slots, Slot.unplaced, hc]
  | cons i rest =>
    have hgen : h'.slots[i]?.map (·.generation) = h.slots[i]?.map (·.generation) := by
      have := congrArg (·[i]?.map (·.generation)) he.slots
      simpa [Function.comp_def, Slot.unplaced] using this
    refine ⟨congrArg (fun g => ObjRef.mk i (g.getD 0)) hgen, .of_slots ?_ rfl he.wrapped⟩
    have hset : (h'.setCell i (some c')).unplaced = (h.setCell i (some c)).unplaced := by
      rw [unplaced_setCell, unplaced_setCell, he, Option.map_some, hc, Option.map_some]
    exact congrArg Heap.slots hset

end Elsewhere

/-- A collection changes nothing but places. -/
theorem elsewhere_relocate {place : Nat → Nat} : h.Elsewhere (h.relocate place).2 := by
  refine relocate_induction (P := h.Elsewhere) rfl fun h₁ i c he hc _ => ?_
  have hlive : h₁.cell? ⟨i, h₁.generationAt i⟩ = some c := cell?_iff_cellAt.2 ⟨rfl, hc⟩
  have hset : (h₁.setCell i (some { c with base := place i })).unplaced = h₁.unplaced := by
    have hsame : h₁.unplaced.setCell i (some c.unplaced) = h₁.unplaced :=
      setCell_self (r := ⟨i, h₁.generationAt i⟩) (by rw [cell?_unplaced, hlive]; rfl)
    exact unplaced_setCell.trans hsame
  exact he.trans hset

theorem Elsewhere.moved {place place' : Nat → Nat} (he : h.Elsewhere h') :
    (h'.relocate place').1 = (h.relocate place).1 := by
  rw [relocate_eq, relocate_eq, he.length]
  refine List.countP_congr fun i _ => ?_
  have hm := movable?_unplaced (h := h') (i := i)
  rw [he, movable?_unplaced] at hm
  have hsome := congrArg Option.isSome hm
  rw [Option.isSome_map, Option.isSome_map] at hsome
  rw [hsome]

end Heap

end AccelHost
