import AccelHost.Proofs.HeapRuns
import AccelHost.Proofs.Tally

/-!
Guards that are lent. Whoever pins a cell holds a guard until it is given back, and the heap keeps
no guards, only a count beside each cell. The counts are right as long as nobody gives back what was
not lent, in whatever order guards come and go while cells are freed, moved and replaced by others.
-/
namespace AccelHost

def HeapRequest.lent (h : Heap) (gs : List Guard) : HeapRequest → List Guard
  | pin r =>
    match h.pin r with
    | .ok (g, _) => g :: gs
    | .error _ => gs
  | unpin g => gs.erase g
  | _ => gs

def HeapRequest.Due (gs : List Guard) : HeapRequest → Prop
  | unpin g => g ∈ gs
  | _ => True

instance (gs : List Guard) (q : HeapRequest) : Decidable (q.Due gs) :=
  match q with
  | .unpin g => inferInstanceAs (Decidable (g ∈ gs))
  | .newObject .. | .newArray .. | .newArrayFrom .. | .free _ | .kind _ | .arrayLength _
  | .readArray .. | .writeArray .. | .readField .. | .writeField .. | .pin _ | .relocate _
  | .poke .. => isTrue trivial

namespace Heap

def Few (gs : List Guard) : Prop := ∀ g ∈ gs, (gs.map (·.ref)).count g.ref < UInt32.size

instance (gs : List Guard) : Decidable (Few gs) := inferInstanceAs (Decidable (∀ g ∈ gs, _))

/-- Requests that are made while some guards are out, with few at a time for each cell. Only what
was lent is given back. -/
def Lends : Heap → List Guard → List HeapRequest → Prop
  | _, gs, [] => Few gs
  | h, gs, q :: qs => Few gs ∧ q.Due gs ∧ Lends (h.perform q).2 (q.lent h gs) qs

instance decidableLends : (h : Heap) → (gs : List Guard) → (qs : List HeapRequest) →
    Decidable (h.Lends gs qs)
  | _, gs, [] => inferInstanceAs (Decidable (Few gs))
  | h, gs, q :: qs =>
    have := decidableLends (h.perform q).2 (q.lent h gs) qs
    inferInstanceAs (Decidable (_ ∧ _ ∧ _))

def lentAfter : Heap → List Guard → List HeapRequest → List Guard
  | _, gs, [] => gs
  | h, gs, q :: qs => lentAfter (h.perform q).2 (q.lent h gs) qs

theorem Lends.few {h : Heap} {gs : List Guard} {qs : List HeapRequest} (hl : h.Lends gs qs) :
    Few gs := by
  cases qs with
  | nil => exact hl
  | cons => exact hl.1

/-! ### Counts and guards agree -/

/-- A heap of which some guards are out, and no others. -/
structure Lent (h : Heap) (gs : List Guard) : Prop where
  sound : h.Sound
  tallied : h.Tallied gs
  exact : h.wrapped = false
  sized : ∀ i c, h.cellAt i = some c → 0 < c.block.size

variable {h h' : Heap} {gs : List Guard} {g : Guard} {r : ObjRef} {c : Cell} {i j : Nat}

theorem lent_empty : Lent {} [] :=
  ⟨sound_empty, ⟨by simp [cell?], by simp, by simp, by simp⟩, rfl, by simp [cellAt]⟩

/-- What every step of a heap keeps is kept by a request that neither takes nor gives a guard. -/
theorem perform_induction {P : Heap → Prop} {q : HeapRequest} (hstart : P h)
    (hstep : ∀ h h', P h → h.Step h' → P h') (hpin : ∀ r, q ≠ .pin r) (hunpin : ∀ g, q ≠ .unpin g) :
    P (h.perform q).2 := by
  have hchange : ∀ {x : Except DispatchError Heap}, (∀ h', x = .ok h' → h.Step h') →
      P (HeapRequest.change h x).2 := by
    intro x hx
    cases x with
    | error e => exact hstart
    | ok h' => exact hstep h h' hstart (hx h' rfl)
  cases q with
  | newObject | newArray | newArrayFrom => exact hstep _ _ hstart (.insert rfl)
  | kind | arrayLength | readArray | readField => exact hstart
  | free r => exact hchange fun h' => .free
  | writeArray k r values => exact hchange fun h' hw => .write (writes_of_writeArray hw)
  | writeField r index value => exact hchange fun h' hw => .write (writes_of_writeField hw)
  | pin r => exact absurd rfl (hpin r)
  | unpin g => exact absurd rfl (hunpin g)
  | relocate place =>
    exact relocate_induction hstart fun h i c hP hc hp =>
      hstep _ _ hP (.move (movable?_eq_some_iff.2 ⟨hc, hp⟩))
  | poke address width word =>
    simp only [perform]
    cases hs : h.store? address width word with
    | none => exact hstart
    | some h' => exact hstep _ _ hstart (.write (writes_of_store? hs))

theorem Change.sized {fits : Prop} {f : Option Nat} (hc : h.Change fits f h') (hs : h.Sound)
    (hsized : ∀ i c, h.cellAt i = some c → 0 < c.block.size) :
    ∀ i c, h'.cellAt i = some c → 0 < c.block.size := by
  cases hc with
  | same => exact hsized
  | insert hpos =>
    exact forall_cells_of_put (fun _ => cellAt_insert hs)
      (fun _ hd => Option.some.inj hd ▸ hpos) hsized
  | free hc => exact forall_cells_of_put (fun _ => cellAt_vacate) (by simp) hsized
  | replace hc hframe =>
    refine forall_cells_of_put (fun _ => cellAt_replace hc) (fun d hd => ?_) hsized
    obtain rfl := Option.some.inj hd
    rw [Block.size, hframe.words]
    exact hsized _ _ (cell?_iff_cellAt.1 hc).2
  | relocate =>
    exact relocate_induction (P := fun h => ∀ i c, h.cellAt i = some c → 0 < c.block.size) hsized
      fun h j d hP hd _ => forall_cells_of_put (fun _ => cellAt_move hd)
        (fun _ hc => Option.some.inj hc ▸ hP j d hd) hP

namespace Lent

theorem wrapped_addPin (hl : h.Lent gs) (hc : h.cell? r = some c)
    (hfew : (gs.map (·.ref)).count r + 1 < UInt32.size) : (h.addPin r c).wrapped = false := by
  have hcount := hl.tallied.counted r c hc
  have hne : c.pins + 1 ≠ 0 := by
    intro hz
    have := congrArg UInt32.toNat hz
    rw [UInt32.toNat_add, UInt32.toNat_one, UInt32.toNat_zero] at this
    have hsize : UInt32.size = 2 ^ 32 := rfl
    omega
  simp [addPin, hl.exact, hne]

theorem perform {q : HeapRequest} (hl : h.Lent gs) (hdue : q.Due gs) (hfew : Few (q.lent h gs)) :
    (h.perform q).2.Lent (q.lent h gs) := by
  have hchange := h.change_perform q
  suffices key : (h.perform q).2.Tallied (q.lent h gs) ∧ (h.perform q).2.wrapped = false from
    ⟨hl.sound.change hchange, key.1, key.2, hchange.sized hl.sound hl.sized⟩
  have hsteps : (∀ r, q ≠ .pin r) → (∀ g, q ≠ .unpin g) →
      (h.perform q).2.Tallied gs ∧ (h.perform q).2.wrapped = false :=
    perform_induction (P := fun h => h.Tallied gs ∧ h.wrapped = false) ⟨hl.tallied, hl.exact⟩
      fun h h' hP hs => ⟨hP.1.step hs, hs.wrapped_eq.trans hP.2⟩
  cases q with
  | pin r =>
    simp only [Heap.perform, HeapRequest.lent] at hfew ⊢
    cases hc : h.cell? r with
    | none =>
      simp only [pin_of_none hc]
      exact ⟨hl.tallied, hl.exact⟩
    | some c =>
      simp only [pin_of_some hc] at hfew ⊢
      have hone : (gs.map (·.ref)).count r + 1 < UInt32.size := by
        simpa using hfew _ List.mem_cons_self
      have hw := hl.wrapped_addPin hc hone
      exact ⟨hl.tallied.pin (pin_of_some hc) hw, hw⟩
  | unpin g =>
    have hg : (g :: gs.erase g).Perm gs := (List.perm_cons_erase hdue).symm
    exact ⟨(hl.tallied.perm hg.symm).unpin, (wrapped_unpin g).trans hl.exact⟩
  | _ => exact hsteps (fun _ h => by cases h) fun _ h => by cases h

theorem run {qs : List HeapRequest} (hl : h.Lent gs) (hq : h.Lends gs qs) :
    (h.run qs).2.Lent (lentAfter h gs qs) := by
  induction qs generalizing h gs with
  | nil => exact hl
  | cons q qs ih =>
    obtain ⟨_, hdue, hrest⟩ := hq
    exact ih (hl.perform hdue hrest.few) hrest

/-! ### What a guard keeps from happening -/

theorem pins_eq_zero_iff (hl : h.Lent gs) (hc : h.cell? r = some c) :
    c.pins = 0 ↔ r ∉ gs.map (·.ref) := by
  rw [← List.count_eq_zero, ← hl.tallied.counted r c hc, ← UInt32.toNat_inj, UInt32.toNat_zero]

theorem exists_of_mem (hl : h.Lent gs) (hg : g ∈ gs) : ∃ c, h.cell? g.ref = some c ∧ 0 < c.pins ∧
    (h.unpin g).cell? g.ref = some { c with pins := c.pins - 1 } := by
  obtain ⟨c, hc, _⟩ := hl.tallied.held g hg
  have hne : c.pins ≠ 0 := fun hz =>
    (hl.pins_eq_zero_iff hc).1 hz (List.mem_map.2 ⟨g, hg, rfl⟩)
  refine ⟨c, hc, UInt32.pos_iff_ne_zero.2 hne, ?_⟩
  simp only [unpin, hc, hne, ↓reduceIte, cell?_setCell hc]

theorem freeCell_of_mem (hl : h.Lent gs) (hc : h.cell? r = some c) (hr : r ∈ gs.map (·.ref)) :
    h.freeCell r = .error (.stillPinned r) := by
  have hne : c.pins ≠ 0 := fun hz => (hl.pins_eq_zero_iff hc).1 hz hr
  simp [freeCell, get_of_some hc, UInt32.pos_iff_ne_zero, hne]

theorem freeCell_of_not_mem (hl : h.Lent gs) (hc : h.cell? r = some c)
    (hr : r ∉ gs.map (·.ref)) : ∃ h', h.freeCell r = .ok h' ∧ h'.cell? r = none := by
  have hzero := (hl.pins_eq_zero_iff hc).2 hr
  refine ⟨h.vacate r.index c.base, freeCell_eq_ok_iff.2 ⟨c, hc, hzero, rfl⟩, ?_⟩
  rw [cell?_vacate hc, if_pos rfl]

end Lent

/-! ### What moves -/

/-- A cell that is moved to an address unless it is pinned. -/
def movedCell (base : Nat) (c : Cell) : Cell := if c.pins = 0 then { c with base } else c

theorem cellAt_moveSlot {place : Nat → Nat} : (h.moveSlot place i).cellAt j =
    if j = i then (h.cellAt j).map (movedCell (place j)) else h.cellAt j := by
  obtain ⟨hm, he⟩ | ⟨c, hc, hp, he⟩ := moveSlot_cases place h i
  · rw [he]
    split
    · rename_i hj
      subst hj
      cases hc : h.cellAt j with
      | none => rfl
      | some c =>
        have hp : c.pins ≠ 0 := fun hp => by
          rw [movable?_eq_some_iff.2 ⟨hc, hp⟩] at hm
          cases hm
        simp [movedCell, hp]
    · rfl
  · rw [he, cellAt_move hc]
    split
    · rename_i hj
      subst hj
      simp [hc, movedCell, hp]
    · rfl

theorem cellAt_moveSlots {place : Nat → Nat} {is : List Nat} (hd : is.Nodup) :
    (is.foldl (moveSlot place) h).cellAt j =
      if j ∈ is then (h.cellAt j).map (movedCell (place j)) else h.cellAt j := by
  induction is generalizing h with
  | nil => simp
  | cons i is ih =>
    obtain ⟨hi, his⟩ := List.nodup_cons.1 hd
    rw [List.foldl_cons, ih his, cellAt_moveSlot]
    by_cases hj : j = i
    · subst hj
      simp [hi]
    · simp [hj]

theorem generationAt_relocate {place : Nat → Nat} :
    (h.relocate place).2.generationAt j = h.generationAt j :=
  relocate_induction (P := fun h' => h'.generationAt j = h.generationAt j) rfl
    fun _ _ _ hP _ _ => generationAt_move.trans hP

theorem cell?_relocate {place : Nat → Nat} :
    (h.relocate place).2.cell? r = (h.cell? r).map (movedCell (place r.index)) := by
  rw [cell?_eq, generationAt_relocate, cell?_eq, relocate_eq, cellAt_moveSlots List.nodup_range]
  split
  · split
    · rfl
    · rename_i hr
      have hnone : h.cellAt r.index = none := by
        simp only [List.mem_range, Nat.not_lt] at hr
        simp [cellAt, hr]
      simp [hnone]
  · rfl

/-- Every block that moves has a place apart from the blocks that are live at its turn, its own
among them. -/
def Clears (h : Heap) (place : Nat → Nat) : Prop :=
  ∀ i < h.slots.length, ∀ c ∈ h.movable? i,
    ((List.range i).foldl (moveSlot place) h).Clear (place i) c.block.size

instance (h : Heap) (place : Nat → Nat) : Decidable (h.Clears place) :=
  inferInstanceAs (Decidable (∀ i < h.slots.length, ∀ c ∈ h.movable? i, _))

/-- Before the turn of a block it is where it was. -/
theorem Clears.base_ne {place : Nat → Nat} (hclear : h.Clears place) (hc : h.cellAt i = some c)
    (hp : c.pins = 0) (hsize : 0 < c.block.size) : place i ≠ c.base := by
  have hturn : ((List.range i).foldl (moveSlot place) h).cellAt i = some c := by
    rw [cellAt_moveSlots List.nodup_range, if_neg (by simp), hc]
  obtain ⟨s, hs, hcell⟩ := Option.bind_eq_some_iff.1 hturn
  have hapart := hclear i (lt_of_cellAt hc) c (movable?_eq_some_iff.2 ⟨hc, hp⟩) s
    (List.mem_of_getElem? hs) c hcell
  unfold Apart at hapart
  omega

def loose (h : Heap) : List ObjRef :=
  ((List.range h.slots.length).filter fun i => (h.movable? i).isSome).map
    fun i => ⟨i, h.generationAt i⟩

theorem nodup_loose : h.loose.Nodup :=
  (List.nodup_range.filter _).map fun _ _ he => congrArg ObjRef.index he

theorem length_loose {place : Nat → Nat} : h.loose.length = (h.relocate place).1 := by
  rw [relocate_eq, loose, List.length_map, List.countP_eq_length_filter]

theorem mem_loose : r ∈ h.loose ↔ ∃ c, h.cell? r = some c ∧ c.pins = 0 := by
  simp only [loose, List.mem_map, List.mem_filter, List.mem_range, Option.isSome_iff_exists]
  constructor
  · rintro ⟨i, ⟨_, c, hm⟩, rfl⟩
    obtain ⟨hc, hp⟩ := movable?_eq_some_iff.1 hm
    exact ⟨c, cell?_iff_cellAt.2 ⟨rfl, hc⟩, hp⟩
  · rintro ⟨c, hc, hp⟩
    obtain ⟨hg, hcell⟩ := cell?_iff_cellAt.1 hc
    exact ⟨r.index, ⟨lt_of_cellAt hcell, c, movable?_eq_some_iff.2 ⟨hcell, hp⟩⟩,
      ObjRef.eq_of_parts rfl hg⟩

/-- Pins are counted exactly. Guards may be taken and given back in any order, while cells are
freed, moved and replaced by others in their slots: as long as only guards that are out are given
back, and each cell has fewer of them than its count can tell, a live cell has as many pins as
guards out. So a guard that goes back finds its cell live and pinned. A live cell is kept from being
freed if it has a guard out, and is freed otherwise. Where blocks move to places that are apart from
live blocks, those of the live cells without guards move, each to another address, all others stay,
and the number of those that moved is told. -/
theorem pins_count_guards_out {qs : List HeapRequest} (hq : Lends {} [] qs) :
    let h := (Heap.run {} qs).2
    let gs := lentAfter {} [] qs
    let refs := gs.map (·.ref)
    (∀ r c, h.cell? r = some c → c.pins.toNat = refs.count r) ∧
    (∀ g ∈ gs, ∃ c, h.cell? g.ref = some c ∧ 0 < c.pins ∧
      (h.unpin g).cell? g.ref = some { c with pins := c.pins - 1 }) ∧
    (∀ r, (h.cell? r).isSome → h.isPinned r = decide (r ∈ refs) ∧
      (r ∈ refs → h.freeCell r = .error (.stillPinned r)) ∧
      (r ∉ refs → ∃ h', h.freeCell r = .ok h' ∧ h'.cell? r = none)) ∧
    ∀ place, h.Clears place → ∃ moved : List ObjRef,
      moved.Nodup ∧ (h.relocate place).1 = moved.length ∧
      (∀ r, r ∈ moved ↔ (h.cell? r).isSome ∧ r ∉ refs) ∧
      (∀ r ∈ moved, ∃ c base, h.cell? r = some c ∧ base ≠ c.base ∧
        (h.relocate place).2.cell? r = some { c with base }) ∧
      ∀ r, r ∉ moved → (h.relocate place).2.cell? r = h.cell? r := by
  intro h gs refs
  have hl : h.Lent gs := lent_empty.run hq
  refine ⟨hl.tallied.counted, fun g hg => hl.exists_of_mem hg, fun r hr => ?_,
    fun place hclear => ?_⟩
  · obtain ⟨c, hc⟩ := Option.isSome_iff_exists.1 hr
    refine ⟨?_, fun hmem => hl.freeCell_of_mem hc hmem, fun hmem => hl.freeCell_of_not_mem hc hmem⟩
    have hzero := hl.pins_eq_zero_iff hc
    simp only [isPinned, hc, UInt32.pos_iff_ne_zero, decide_eq_decide]
    rw [Ne, hzero, not_not]
  · have hmem : ∀ r, r ∈ h.loose ↔ (h.cell? r).isSome ∧ r ∉ refs := by
      intro r
      rw [mem_loose, Option.isSome_iff_exists]
      constructor
      · rintro ⟨c, hc, hp⟩
        exact ⟨⟨c, hc⟩, (hl.pins_eq_zero_iff hc).1 hp⟩
      · rintro ⟨⟨c, hc⟩, hr⟩
        exact ⟨c, hc, (hl.pins_eq_zero_iff hc).2 hr⟩
    refine ⟨h.loose, nodup_loose, length_loose.symm, hmem, fun r hr => ?_, fun r hr => ?_⟩
    · obtain ⟨c, hc, hp⟩ := mem_loose.1 hr
      have hcell := (cell?_iff_cellAt.1 hc).2
      refine ⟨c, place r.index, hc, hclear.base_ne hcell hp (hl.sized _ _ hcell), ?_⟩
      rw [cell?_relocate, hc, Option.map_some, movedCell, if_pos hp]
    · rw [cell?_relocate]
      cases hc : h.cell? r with
      | none => rfl
      | some c =>
        have hp : c.pins ≠ 0 := fun hp => hr (mem_loose.2 ⟨c, hc, hp⟩)
        rw [Option.map_some, movedCell, if_neg hp]

/-- A slot is used again and pinned twice, and one of the two guards goes back. Another cell is
pinned after it has moved, and is let go. -/
def nestedPins : List HeapRequest :=
  [.newObject "Box" 2 64, .free ⟨0, 0⟩, .newArray .int 3 64, .pin ⟨0, 1⟩, .pin ⟨0, 1⟩,
    .newObject "Box" 1 128, .unpin ⟨⟨0, 1⟩, 64, 3⟩, .relocate fun i => 256 + 64 * i,
    .pin ⟨1, 0⟩, .unpin ⟨⟨1, 0⟩, 320, 1⟩]

theorem pins_count_guards_out_nestedPins :
    Lends {} [] nestedPins ∧
      let h := (Heap.run {} nestedPins).2
      let place := fun _ => 512
      h.freeCell ⟨0, 1⟩ = .error (.stillPinned ⟨0, 1⟩) ∧
      (∃ h', h.freeCell ⟨1, 0⟩ = .ok h' ∧ h'.cell? ⟨1, 0⟩ = none) ∧
      h.Clears place ∧ (h.relocate place).2.cell? ⟨0, 1⟩ = h.cell? ⟨0, 1⟩ := by
  have hq : Lends {} [] nestedPins := by decide
  obtain ⟨_, _, hfree, hmoves⟩ := pins_count_guards_out hq
  have hout : (⟨0, 1⟩ : ObjRef) ∈ (lentAfter {} [] nestedPins).map (·.ref) := by decide
  have hclear : (Heap.run {} nestedPins).2.Clears fun _ => 512 := by decide
  obtain ⟨moved, _, _, hmem, _, hstay⟩ := hmoves (fun _ => 512) hclear
  have hstill := (hfree ⟨0, 1⟩ (by decide)).2.1 hout
  have hfreed := (hfree ⟨1, 0⟩ (by decide)).2.2 (by decide)
  exact ⟨hq, hstill, hfreed, hclear, hstay ⟨0, 1⟩ fun hm => ((hmem _).1 hm).2 hout⟩

end Heap

end AccelHost
