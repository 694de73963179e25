import AccelHost.Proofs.AddressMap
import AccelHost.Proofs.Store
import Mathlib.Data.List.Perm.Lattice

/-!
A heap refines a store without addresses. Whatever is asked, a heap answers as the store does, its
live references hold what the store keeps for them, and that is what memory shows at their addresses
as well, wherever an allocator lays the blocks and however they are moved about.
-/
namespace AccelHost

namespace Content

theorem array?_elements {k : ElemKind} {values : List k.Val} :
    (elements k values).array? k = some values := by simp [array?]

theorem array?_of_kind_ne {x : Content} {k : ElemKind} (hx : x.kind ≠ .array k) :
    x.array? k = none := by
  cases x with
  | fields className slots => rfl
  | elements k' values =>
    have hk : ¬k' = k := fun he => hx (congrArg ObjectKind.array he)
    simp [array?, hk]

end Content

namespace Cell

variable {c c' : Cell}

def content (c : Cell) : Content :=
  match c.kind with
  | .ofClass className => .fields className (c.block.elements .long c.length)
  | .array k => .elements k (c.block.elements k c.length)

def item (c : Cell) : Store.Item := ⟨c.content, c.pins⟩

theorem content_of_class {className : String} (hk : c.kind = .ofClass className) :
    c.content = .fields className (c.block.elements .long c.length) := by simp [content, hk]

theorem content_of_array {k : ElemKind} (hk : c.kind = .array k) :
    c.content = .elements k (c.block.elements k c.length) := by simp [content, hk]

theorem kind_content (c : Cell) : c.content.kind = c.kind := by
  cases hk : c.kind with
  | ofClass className => rw [content_of_class hk, Content.kind]
  | array k => rw [content_of_array hk, Content.kind]

theorem values_content (c : Cell) :
    c.content.values = c.block.elements c.content.elemKind c.length := by
  unfold content
  cases c.kind <;> rfl

theorem length_values_content (c : Cell) : c.content.values.length = c.length := by
  rw [values_content, Block.length_elements]

def Roomy (c : Cell) : Prop := c.length * c.content.elemKind.size ≤ c.block.size

theorem SameFrame.roomy (hf : c.SameFrame c') (hr : c.Roomy) : c'.Roomy := by
  have hkind : c'.content.elemKind = c.content.elemKind := by
    cases hk : c.kind with
    | ofClass className =>
      rw [content_of_class hk, content_of_class (hf.kind.trans hk), Content.elemKind,
        Content.elemKind]
    | array k =>
      rw [content_of_array hk, content_of_array (hf.kind.trans hk), Content.elemKind,
        Content.elemKind]
  unfold Roomy Block.size at *
  rw [hkind, hf.length, hf.words]
  exact hr

end Cell

/-- A request of the managed side, for a size that can be told in 64 bits. What native code pokes
into memory is not among them. -/
def HeapRequest.Managed : HeapRequest → Prop
  | newObject _ fields _ => fields * 8 < UInt64.size
  | newArray k length _ => length * k.size < UInt64.size
  | newArrayFrom k values _ => values.length * k.size < UInt64.size
  | poke .. => False
  | _ => True

instance : (q : HeapRequest) → Decidable q.Managed
  | .newObject .. | .newArray .. | .newArrayFrom .. => inferInstanceAs (Decidable (_ < _))
  | .poke .. => inferInstanceAs (Decidable False)
  | .free .. | .kind .. | .arrayLength .. | .readArray .. | .writeArray .. | .readField ..
  | .writeField .. | .pin .. | .unpin .. | .relocate .. => inferInstanceAs (Decidable True)

namespace Heap

variable {h : Heap} {s : Store} {r : ObjRef} {c c' : Cell} {x : Store.Item}

/-- A heap shows a store: its live references are those of the store and hold the same, and it will
give out the same references. -/
structure Shows (h : Heap) (s : Store) : Prop where
  sound : h.Sound
  items : ∀ r, s.items.get? r = (h.cell? r).map Cell.item
  keys : s.items.keys.Nodup
  ready : s.ready = h.free.map fun i => ⟨i, h.generationAt i⟩
  issued : s.issued = h.slots.length
  roomy : ∀ r c, h.cell? r = some c → c.Roomy

theorem shows_empty : Shows {} {} :=
  ⟨sound_empty, by simp [Keyed.get?, cell?], by simp [Keyed.keys], rfl, rfl, by simp [cell?]⟩

namespace Shows

theorem get_of_some (hs : h.Shows s) (hc : h.cell? r = some c) : s.get r = .ok c.item := by
  rw [Store.get_eq_ok_iff, hs.items, hc, Option.map_some]

theorem get_of_none (hs : h.Shows s) (hc : h.cell? r = none) :
    s.get r = .error (.invalidReference r) := by
  simp [Store.get, hs.items, hc]

/-! ### What each change shows -/

theorem next_eq (hs : h.Shows s) : s.next = ⟨h.nextSlot, h.generationAt h.nextSlot⟩ := by
  rw [Store.next, hs.ready, hs.issued]
  unfold nextSlot
  cases h.free with
  | nil => simp [generationAt]
  | cons i rest => simp

theorem get?_next (hs : h.Shows s) : s.items.get? s.next = none := by
  have hnone : h.cell? ⟨h.nextSlot, h.generationAt h.nextSlot⟩ = none := by
    rw [cell?_eq, hs.sound.cellAt_nextSlot, ite_self]
  rw [hs.items, hs.next_eq, hnone, Option.map_none]

theorem insert (hs : h.Shows s) (hroom : c.Roomy) (hpins : c.pins = 0) :
    (h.insert c).2.Shows (s.insert c.content) := by
  have hnext : s.next = (h.insert c).1 := by rw [hs.next_eq, insert_fst]
  refine ⟨hs.sound.insert, fun r => ?_, Keyed.nodup_keys_set hs.keys, ?_, ?_, fun r d hd => ?_⟩
  · rw [cell?_insert hs.sound, ← hnext]
    by_cases hr : r = s.next
    · subst hr
      simp [Store.insert, Keyed.get?_set_self, Cell.item, hpins]
    · simp [Store.insert, Keyed.get?_set_of_ne (Ne.symm hr), hr, hs.items]
  · rw [free_insert]
    simp [Store.insert, hs.ready, List.map_tail]
  · rw [length_slots_insert]
    simp [Store.insert, hs.ready, hs.issued]
  · rw [cell?_insert hs.sound] at hd
    by_cases hr : r = (h.insert c).1
    · rw [if_pos hr] at hd
      cases hd
      exact hroom
    · rw [if_neg hr] at hd
      exact hs.roomy r d hd

theorem vacate {base : Nat} (hs : h.Shows s) (hc : h.cell? r = some c) :
    (h.vacate r.index base).Shows (s.remove r) := by
  obtain ⟨hg, hcell⟩ := cell?_iff_cellAt.1 hc
  have hgen : ∀ j, (h.vacate r.index base).generationAt j =
      h.generationAt j + if j = r.index then 1 else 0 :=
    fun j => generationAt_vacate (lt_of_cellAt hcell)
  refine ⟨hs.sound.vacate hcell, fun r' => ?_, Keyed.nodup_keys_erase hs.keys, ?_, ?_,
    fun r' d hd => ?_⟩
  · rw [cell?_vacate hc]
    by_cases hr : r' = r
    · subst hr
      simp [Store.remove, Keyed.get?_erase_self]
    · simp [Store.remove, Keyed.get?_erase_of_ne (Ne.symm hr), hr, hs.items]
  · have hfirst : (h.vacate r.index base).generationAt r.index = r.generation + 1 := by
      rw [hgen, if_pos rfl, hg]
    have hrest : h.free.map (fun i => (⟨i, (h.vacate r.index base).generationAt i⟩ : ObjRef)) =
        h.free.map fun i => ⟨i, h.generationAt i⟩ := List.map_congr_left fun i hi => by
      have hne : i ≠ r.index := by
        rintro rfl
        exact hs.sound.not_free hcell hi
      rw [hgen, if_neg hne, UInt32.add_zero]
    have hfree : (h.vacate r.index base).free = r.index :: h.free := rfl
    rw [hfree, List.map_cons, hfirst, hrest, ← hs.ready]
    rfl
  · rw [Store.remove, hs.issued]
    simp [Heap.vacate]
  · rw [cell?_vacate hc] at hd
    by_cases hr : r' = r
    · rw [if_pos hr] at hd
      cases hd
    · rw [if_neg hr] at hd
      exact hs.roomy r' d hd

theorem replace {wrapped : Bool} (hs : h.Shows s) (hc : h.cell? r = some c)
    (hframe : c.SameFrame c') :
    Shows { h.setCell r.index (some c') with wrapped } (s.put r c'.item) := by
  obtain ⟨hg, hcell⟩ := cell?_iff_cellAt.1 hc
  have hset : ∀ r', cell? { h.setCell r.index (some c') with wrapped } r' =
      if r' = r then some c' else h.cell? r' := fun r' => cell?_setCell hc
  have hsound : (h.setCell r.index (some c')).Sound := hs.sound.setCell hcell
  refine ⟨⟨hsound.empty, hsound.nodup⟩, fun r' => ?_, Keyed.nodup_keys_set hs.keys, ?_, ?_,
    fun r' d hd => ?_⟩
  · rw [hset]
    by_cases hr : r' = r
    · subst hr
      simp [Store.put, Keyed.get?_set_self]
    · simp [Store.put, Keyed.get?_set_of_ne (Ne.symm hr), hr, hs.items]
  · have hgen : ∀ i, generationAt { h.setCell r.index (some c') with wrapped } i =
        h.generationAt i := fun i => generationAt_setCell
    simp only [Store.put, hs.ready, hgen]
    rfl
  · simp [Store.put, hs.issued]
  · rw [hset] at hd
    by_cases hr : r' = r
    · rw [if_pos hr] at hd
      cases hd
      exact hframe.roomy (hs.roomy r c hc)
    · rw [if_neg hr] at hd
      exact hs.roomy r' d hd

theorem move {i base : Nat} (hs : h.Shows s) (hc : h.cellAt i = some c) :
    (h.move i c base).Shows s := by
  have hset : ∀ r', (h.move i c base).cell? r' =
      if r' = ⟨i, h.generationAt i⟩ then some { c with base } else h.cell? r' := fun r' =>
    cell?_of_cellAt rfl (fun _ => generationAt_move) fun _ => cellAt_move hc
  have hlive : h.cell? ⟨i, h.generationAt i⟩ = some c := cell?_iff_cellAt.2 ⟨rfl, hc⟩
  refine ⟨hs.sound.move hc, fun r' => ?_, hs.keys, ?_, ?_, fun r' d hd => ?_⟩
  · rw [hset, hs.items]
    by_cases hr : r' = ⟨i, h.generationAt i⟩
    · rw [if_pos hr, hr, hlive]
      rfl
    · rw [if_neg hr]
  · simp only [generationAt_move]
    exact hs.ready
  · rw [hs.issued]
    simp [Heap.move]
  · rw [hset] at hd
    by_cases hr : r' = ⟨i, h.generationAt i⟩
    · rw [if_pos hr] at hd
      cases hd
      exact hs.roomy _ c hlive
    · rw [if_neg hr] at hd
      exact hs.roomy r' d hd

theorem relocate (hs : h.Shows s) (place : Nat → Nat) :
    (h.relocate place).1 = (s.items.countP fun e => e.2.pins = 0) ∧
      (h.relocate place).2.Shows s := by
  refine ⟨?_, relocate_induction (P := fun h' => h'.Shows s) hs fun _ _ _ hs' hc _ => hs'.move hc⟩
  -- Slots whose cells may move and objects without pins are listed in different orders; both lists
  -- name every slot once, so it is enough that they name the same.
  rw [relocate_eq, List.countP_eq_length_filter, List.countP_eq_length_filter,
    ← List.length_map (f := fun e : ObjRef × Store.Item => e.1.index)]
  apply List.Perm.length_eq
  have hlive : ∀ e ∈ s.items, ∃ c, h.cell? e.1 = some c ∧ c.item = e.2 := fun e he => by
    have hget := (Keyed.get?_eq_some_iff_mem hs.keys).2 he
    rw [hs.items] at hget
    exact Option.map_eq_some_iff.1 hget
  rw [List.perm_ext_iff_of_nodup (List.nodup_range.filter _)]
  · intro i
    simp only [List.mem_filter, List.mem_range, List.mem_map, decide_eq_true_eq,
      Option.isSome_iff_exists, movable?_eq_some_iff]
    constructor
    · rintro ⟨_, c, hc, hp⟩
      have hcell : h.cell? ⟨i, h.generationAt i⟩ = some c := cell?_iff_cellAt.2 ⟨rfl, hc⟩
      have hmem : (⟨i, h.generationAt i⟩, c.item) ∈ s.items :=
        (Keyed.get?_eq_some_iff_mem hs.keys).1 (by rw [hs.items, hcell, Option.map_some])
      exact ⟨_, ⟨hmem, hp⟩, rfl⟩
    · rintro ⟨e, ⟨he, hp⟩, rfl⟩
      obtain ⟨c, hc, hitem⟩ := hlive e he
      have hcell := (cell?_iff_cellAt.1 hc).2
      exact ⟨lt_of_cellAt hcell, c, hcell, by rw [← hp, ← hitem, Cell.item]⟩
  · have hnodup : s.items.Nodup := List.Nodup.of_map _ hs.keys
    refine List.Nodup.map_on (fun e he e' he' hi => ?_) (hnodup.filter _)
    obtain ⟨c, hc, hitem⟩ := hlive e (List.mem_filter.1 he).1
    obtain ⟨c', hc', hitem'⟩ := hlive e' (List.mem_filter.1 he').1
    have hr : e.1 = e'.1 := eq_of_cell? hc hc' hi
    rw [hr, hc'] at hc
    cases hc
    exact Prod.ext hr (hitem.symm.trans hitem')

/-! ### What each request is answered with -/

/-- A change that is refused for the same reason, or made so that the heap shows the store still. -/
inductive Alike : Except DispatchError Heap → Except DispatchError Store → Prop where
  | error (e : DispatchError) : Alike (.error e) (.error e)
  | ok {h : Heap} {s : Store} : h.Shows s → Alike (.ok h) (.ok s)

theorem free (hs : h.Shows s) : Alike (h.freeCell r) (s.free r) := by
  unfold Heap.freeCell Heap.get Store.free
  cases hc : h.cell? r with
  | none =>
    rw [hs.get_of_none hc]
    exact .error _
  | some c =>
    rw [hs.get_of_some hc]
    by_cases hp : 0 < c.pins
    · simp only [hp, Cell.item, ↓reduceIte]
      exact .error _
    · simp only [hp, Cell.item, ↓reduceIte]
      exact .ok (hs.vacate hc)

theorem arrayLength (hs : h.Shows s) : s.arrayLength r = h.arrayLength r := by
  unfold Heap.arrayLength Heap.get Store.arrayLength
  cases hc : h.cell? r with
  | none => rw [hs.get_of_none hc]
  | some c =>
    rw [hs.get_of_some hc]
    cases hk : c.kind with
    | ofClass className => simp [Cell.item, Cell.content_of_class hk, hk]
    | array k => simp [Cell.item, Cell.content_of_array hk, hk]

theorem readArray {k : ElemKind} (hs : h.Shows s) : s.readArray k r = h.readArray k r := by
  unfold Heap.readArray Heap.arrayCell Heap.get Store.readArray
  cases hc : h.cell? r with
  | none =>
    rw [hs.get_of_none hc]
    rfl
  | some c =>
    rw [hs.get_of_some hc]
    by_cases hk : c.kind = .array k
    · simp [Cell.item, Cell.content_of_array hk, Content.array?_elements, hk, Except.map]
    · have hkind : c.content.kind ≠ .array k := by rwa [c.kind_content]
      simp [Cell.item, Content.array?_of_kind_ne hkind, c.kind_content, hk, Except.map]

theorem writeArray {k : ElemKind} {values : List k.Val} (hs : h.Shows s) :
    Alike (h.writeArray k r values) (s.writeArray k r values) := by
  unfold Heap.writeArray Heap.arrayCell Heap.get Store.writeArray
  cases hc : h.cell? r with
  | none =>
    rw [hs.get_of_none hc]
    exact .error _
  | some c =>
    rw [hs.get_of_some hc]
    by_cases hk : c.kind = .array k
    · have harray : c.content.array? k = some (c.block.elements k c.length) := by
        rw [Cell.content_of_array hk, Content.array?_elements]
      simp only [Cell.item, harray, hk, ↓reduceIte, Block.length_elements]
      by_cases hl : c.length < values.length
      · simp only [hl, ↓reduceIte]
        exact .error _
      · simp only [hl, ↓reduceIte]
        have hitem : Cell.item { c with block := c.block.overwrite k values } =
            ⟨.elements k (values ++ (c.block.elements k c.length).drop values.length), c.pins⟩ := by
          simp only [Cell.item, Cell.content, hk, Block.elements_overwrite (Nat.not_lt.1 hl)]
        rw [← hitem]
        exact .ok (hs.replace hc ⟨rfl, rfl, rfl, Block.words_overwrite ..⟩)
    · have hkind : c.content.kind ≠ .array k := by rwa [c.kind_content]
      simp only [Cell.item, Content.array?_of_kind_ne hkind, c.kind_content, hk, ↓reduceIte]
      exact .error _

theorem readField {index : Nat} (hs : h.Shows s) : s.readField r index = h.readField r index := by
  unfold Heap.readField Heap.fieldCell Heap.get Store.readField
  cases hc : h.cell? r with
  | none =>
    rw [hs.get_of_none hc]
    rfl
  | some c =>
    rw [hs.get_of_some hc]
    cases hk : c.kind with
    | array k => simp [Cell.item, Cell.content_of_array hk, hk, Except.map]
    | ofClass className =>
      by_cases hi : index < c.length
      · simp [Cell.item, Cell.content_of_class hk, hk, hi, Except.map, Block.elements]
      · simp [Cell.item, Cell.content_of_class hk, hk, hi, Except.map, Block.elements]

theorem writeField {index : Nat} {value : Int64} (hs : h.Shows s) :
    Alike (h.writeField r index value) (s.writeField r index value) := by
  unfold Heap.writeField Heap.fieldCell Heap.get Store.writeField
  cases hc : h.cell? r with
  | none =>
    rw [hs.get_of_none hc]
    exact .error _
  | some c =>
    rw [hs.get_of_some hc]
    cases hk : c.kind with
    | array k =>
      simp only [Cell.item, Cell.content_of_array hk, hk, Except.map]
      exact .error _
    | ofClass className =>
      have hlen : @List.length Int64 (c.block.elements .long c.length) = c.length :=
        Block.length_elements ..
      simp only [Cell.item, Cell.content_of_class hk, hk, hlen]
      by_cases hi : index < c.length
      · simp only [hi, ↓reduceIte, Except.map]
        have hitem : Cell.item
            { c with block := c.block.store (8 * index) 8 value.toUInt64 } =
              ⟨.fields className ((c.block.elements .long c.length).set index value), c.pins⟩ := by
          simp only [Cell.item, Cell.content, hk, Block.elements_store]
        rw [← hitem]
        exact .ok (hs.replace hc ⟨rfl, rfl, rfl, Block.words_store ..⟩)
      · simp only [hi, ↓reduceIte, Except.map]
        exact .error _

theorem unpin {g : Guard} (hs : h.Shows s) : (h.unpin g).Shows (s.unpin g.ref) := by
  unfold Heap.unpin Store.unpin
  rw [hs.items]
  cases hc : h.cell? g.ref with
  | none => exact hs
  | some c => exact hs.replace hc ⟨rfl, rfl, rfl, rfl⟩

/-- A request is answered by both alike, and the heap shows the store afterwards. -/
def Agrees (a : HeapReply × Heap) (b : HeapReply × Store) : Prop := b.1 = a.1 ∧ a.2.Shows b.2

theorem agrees_ask {α : Type} {y x : Except DispatchError α} {answer : α → HeapAnswer}
    (hs : h.Shows s) (hx : y = x) :
    Agrees (HeapRequest.ask h x answer) (HeapRequest.ask s y answer) :=
  ⟨by rw [hx, HeapRequest.ask, HeapRequest.ask], hs⟩

theorem agrees_change {x : Except DispatchError Heap} {y : Except DispatchError Store}
    (hs : h.Shows s) (hx : Alike x y) :
    Agrees (HeapRequest.change h x) (HeapRequest.change s y) := by
  cases hx with
  | error e => exact ⟨rfl, hs⟩
  | ok hs' => exact ⟨rfl, hs'⟩

/-- A new cell is what the store adds, and has the same reference. -/
theorem agrees_insert {content : Content} (hs : h.Shows s) (hroom : c.Roomy) (hpins : c.pins = 0)
    (hc : c.content = content) :
    Agrees (.ok (.allocated (h.insert c).1), (h.insert c).2)
      (.ok (.allocated s.next), s.insert content) := by
  subst hc
  refine ⟨?_, hs.insert hroom hpins⟩
  rw [hs.next_eq, insert_fst]

theorem agrees_pin (hs : h.Shows s) : Agrees (h.perform (.pin r)) (s.perform (.pin r)) := by
  cases hc : h.cell? r with
  | none =>
    simp only [Heap.perform, pin_of_none hc, Store.perform, hs.get_of_none hc]
    exact ⟨rfl, hs⟩
  | some c =>
    simp only [Heap.perform, pin_of_some hc, Store.perform, hs.get_of_some hc]
    refine ⟨?_, hs.replace hc ⟨rfl, rfl, rfl, rfl⟩⟩
    simp only [Cell.item, c.length_values_content]

theorem le_size_of_lt {n size : Nat} (hn : n * size < UInt64.size) :
    n * size ≤ (Block.zeroed (byteSize n size)).size := by
  have hbytes : byteSize n size = n * size := Nat.mod_eq_of_lt hn
  rw [hbytes]
  exact Block.le_size_zeroed _

theorem perform {q : HeapRequest} (hs : h.Shows s) (hq : q.Managed) :
    Agrees (h.perform q) (s.perform q) := by
  cases q with
  | newObject className fields base =>
    refine hs.agrees_insert (le_size_of_lt hq) rfl ?_
    rw [Cell.content_of_class rfl, Block.elements_zeroed]
    rfl
  | newArray k length base =>
    refine hs.agrees_insert (le_size_of_lt hq) rfl ?_
    rw [Cell.content_of_array rfl, Block.elements_zeroed]
  | newArrayFrom k values base =>
    refine hs.agrees_insert (le_size_of_lt hq) rfl ?_
    have hdrop : ∀ b : Block, (b.elements k values.length).drop values.length = [] := fun b =>
      List.drop_of_length_le (Nat.le_of_eq (Block.length_elements ..))
    rw [Cell.content_of_array rfl, Block.elements_overwrite (Nat.le_refl _), hdrop, List.append_nil]
  | free r => exact hs.agrees_change hs.free
  | kind r =>
    refine ⟨?_, hs⟩
    cases hc : h.cell? r with
    | none =>
      simp [Heap.perform, Store.perform, Heap.kind, HeapRequest.ask, Heap.get_of_none hc,
        hs.get_of_none hc, Except.map]
    | some c =>
      simp [Heap.perform, Store.perform, Heap.kind, HeapRequest.ask, Heap.get_of_some hc,
        hs.get_of_some hc, Except.map, Cell.item, c.kind_content]
  | arrayLength r => exact hs.agrees_ask hs.arrayLength
  | readArray k r => exact hs.agrees_ask hs.readArray
  | writeArray k r values => exact hs.agrees_change hs.writeArray
  | readField r index => exact hs.agrees_ask hs.readField
  | writeField r index value => exact hs.agrees_change hs.writeField
  | pin r => exact hs.agrees_pin
  | unpin g => exact ⟨rfl, hs.unpin⟩
  | relocate place =>
    obtain ⟨hcount, hmoved⟩ := hs.relocate place
    refine ⟨?_, hmoved⟩
    simp only [Heap.perform, Store.perform, hcount]
  | poke => cases hq

theorem run {qs : List HeapRequest} (hs : h.Shows s) (hq : ∀ q ∈ qs, q.Managed) :
    (s.run qs).1 = (h.run qs).1 ∧ (h.run qs).2.Shows (s.run qs).2 := by
  induction qs generalizing h s with
  | nil => exact ⟨rfl, hs⟩
  | cons q qs ih =>
    obtain ⟨hreply, hs'⟩ := hs.perform (hq q (by simp))
    obtain ⟨hreplies, hrest⟩ := ih hs' fun q' hq' => hq q' (List.mem_cons_of_mem q hq')
    refine ⟨?_, hrest⟩
    exact congrArg₂ List.cons hreply hreplies

end Shows

/-! ### What memory shows -/

theorem Mapped.load?_eq {offset width : Nat} (hm : h.Mapped) (hc : h.cell? r = some c)
    (hwidth : 0 < width) (hfit : offset + width ≤ c.block.size) :
    h.load? (c.base + offset) width = some (c.block.load offset width) := by
  rw [load?, hm.atAddress?_eq hc (by omega) hfit, Option.map_some]

/-- What a cell holds is what memory shows, element by element, where its block lies. -/
theorem Mapped.load?_element {i : Nat} (hm : h.Mapped) (hc : h.cell? r = some c)
    (hroom : c.Roomy) {v : c.content.elemKind.Val} (hv : c.content.values[i]? = some v) :
    (h.load? (c.base + i * c.content.elemKind.size) c.content.elemKind.size).map
      c.content.elemKind.ofWord = some v := by
  obtain ⟨hi, _⟩ := List.getElem?_eq_some_iff.1 hv
  rw [Cell.length_values_content] at hi
  have hfit : i * c.content.elemKind.size + c.content.elemKind.size ≤ c.block.size := by
    have hmul : (i + 1) * c.content.elemKind.size ≤ c.length * c.content.elemKind.size :=
      Nat.mul_le_mul_right _ hi
    have hroom' : c.length * c.content.elemKind.size ≤ c.block.size := hroom
    rw [Nat.add_mul, Nat.one_mul] at hmul
    omega
  rw [hm.load?_eq hc c.content.elemKind.size_pos hfit, Option.map_some]
  rw [c.values_content] at hv
  simpa [Block.elements, hi, Block.element] using hv

/-- The store keeps slots that 32 bits can tell, while there are no more slots. -/
theorem index_lt_of_item {qs : List HeapRequest} (hq : ∀ q ∈ qs, q.Managed)
    (hfew : (Heap.run {} qs).2.slots.length ≤ UInt32.size) {x : Store.Item}
    (hx : (Store.run {} qs).2.items.get? r = some x) : r.index < UInt32.size := by
  rw [(shows_empty.run hq).2.items r] at hx
  obtain ⟨c, hc, -⟩ := Option.map_eq_some_iff.1 hx
  exact index_lt_of_cell? hfew hc

/-- A heap refines a store without addresses. As long as an allocator gives only room that is not
taken, and sizes are such as 64 bits can tell, every request to a heap is answered as the store
answers it, and all that is live holds what the store keeps. Memory shows the same: at the address
of a reference its elements lie one after another. And no request changes what a reference holds but
one that frees it or writes to it. A slot is told in 32 bits, which is enough for `2 ^ 32` of them
(`index_lt_of_item`). -/
theorem refines_store {qs : List HeapRequest} (ha : Admits {} qs)
    (hq : ∀ q ∈ qs, q.Managed) :
    let h := (Heap.run {} qs).2
    let s := (Store.run {} qs).2
    (Heap.run {} qs).1 = (Store.run {} qs).1 ∧
      (∀ r, (h.cell? r).map Cell.item = s.items.get? r) ∧
      (∀ r x a, s.items.get? r = some x → h.address r = .ok a →
        ∀ i v, x.content.values[i]? = some v →
          (h.load? (a + i * x.content.elemKind.size) x.content.elemKind.size).map
            x.content.elemKind.ofWord = some v) ∧
      ∀ r c q, h.cell? r = some c → q.Managed → q.changes? ≠ some r →
        ((h.perform q).2.cell? r).map Cell.content = some c.content := by
  intro h s
  obtain ⟨hreplies, hs⟩ := shows_empty.run hq
  have hm : h.Mapped := mapped_empty.run ha
  refine ⟨hreplies.symm, fun r => (hs.items r).symm, fun r x a hx hra i v hv => ?_,
    fun r c q hc hmanaged hchange => ?_⟩
  · obtain ⟨c, hget, rfl⟩ := exists_of_map_eq_ok hra
    have hc := h.get_eq_ok_iff.1 hget
    rw [hs.items r, hc] at hx
    cases hx
    exact hm.load?_element hc (hs.roomy r c hc) hv
  · have hx : s.items.get? r = some c.item := by rw [hs.items r, hc, Option.map_some]
    have hsame := Store.content_perform hs.get?_next hx hchange
    rw [(hs.perform hmanaged).2.items r, Option.map_map] at hsame
    exact hsame

/-- Two objects are written to while one is pinned, and the other moves to where a third one was. -/
def sharing : List HeapRequest :=
  [.newObject "Pair" 2 64, .newArrayFrom .short [1, 2, 3] 80, .newArray .byte 5 96, .free ⟨2, 0⟩,
    .pin ⟨0, 0⟩, .writeField ⟨0, 0⟩ 1 7, .writeArray .short ⟨1, 0⟩ [9],
    .relocate fun _ => 96, .readArray .short ⟨1, 0⟩, .readField ⟨0, 0⟩ 1]

theorem refines_store_sharing :
    Admits {} sharing ∧ (∀ q ∈ sharing, q.Managed) ∧
      (Heap.run {} sharing).1 = [.ok (.allocated ⟨0, 0⟩), .ok (.allocated ⟨1, 0⟩),
        .ok (.allocated ⟨2, 0⟩), .ok .done, .ok (.pinned ⟨0, 0⟩ 2), .ok .done, .ok .done,
        .ok (.moved 1), .ok (.elements .short [9, 2, 3]), .ok (.field 7)] := by
  have ha : Admits {} sharing := by decide
  have hq : ∀ q ∈ sharing, q.Managed := by decide
  refine ⟨ha, hq, (refines_store ha hq).1.trans ?_⟩
  decide

end Heap

end AccelHost
