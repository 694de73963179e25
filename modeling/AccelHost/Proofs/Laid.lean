import AccelHost.Proofs.AddressMap
import AccelHost.Proofs.Placement

/-!
Where a host lays its blocks. A new block lies clear of those that are live, and so does a block
that a collection moves. So the address map of its heap stays exact, as long as the limit of its
blocks is an address.
-/
namespace AccelHost

namespace Heap

/-- The blocks of a heap lie below a limit, and if that is an address, where the map has them. -/
structure Laid (h : Heap) (limit : Nat) : Prop where
  pos : 0 < limit
  sound : h.Sound
  below : ∀ i c, h.cellAt i = some c → 0 < c.block.size ∧ c.base + c.block.size ≤ limit
  mapped : limit ≤ UInt64.size → h.Mapped

namespace Laid

variable {h h' : Heap} {r : ObjRef} {c c' : Cell} {i limit : Nat}

theorem mono {limit' : Nat} (hl : h.Laid limit) (hle : limit ≤ limit') : h.Laid limit' :=
  ⟨Nat.lt_of_lt_of_le hl.pos hle, hl.sound,
    fun i c hc => (hl.below i c hc).imp_right (Nat.le_trans · hle),
    fun hs => hl.mapped (Nat.le_trans hle hs)⟩

theorem isBelow (hl : h.Laid limit) : h.Below limit := fun s hs c hc => by
  obtain ⟨i, hi⟩ := List.mem_iff_getElem?.1 hs
  exact (hl.below i c (by simp [cellAt, hi, Option.mem_def.1 hc])).2

theorem vacant {base size limit' : Nat} (hl : h.Laid limit)
    (hlays : h.Lays limit base size limit') (hs : limit' ≤ UInt64.size) : h.Vacant base size :=
  ⟨hlays.pos hl.pos, Nat.le_trans hlays.below hs, hlays.clear hl.isBelow⟩

theorem insert {limit' : Nat} (hl : h.Laid limit) (hpos : 0 < c.block.size)
    (hlays : h.Lays limit c.base c.block.size limit') : (h.insert c).2.Laid limit' := by
  have hle : limit ≤ limit' := Nat.le_of_add_right_le hlays.grows
  refine ⟨Nat.lt_of_lt_of_le hl.pos hle, hl.sound.insert, fun j d hd => ?_, fun hs => ?_⟩
  · rw [cellAt_insert hl.sound] at hd
    split at hd
    · cases hd
      exact ⟨hpos, hlays.below⟩
    · exact (hl.below j d hd).imp_right (Nat.le_trans · hle)
  · exact (hl.mapped (Nat.le_trans hle hs)).insert hpos (hl.vacant hlays hs)

theorem free (hl : h.Laid limit) (hf : h.freeCell r = .ok h') : h'.Laid limit := by
  obtain ⟨c, hc, _, rfl⟩ := freeCell_eq_ok_iff.1 hf
  have hcell := (cell?_iff_cellAt.1 hc).2
  refine ⟨hl.pos, hl.sound.vacate hcell, fun j d hd => ?_, fun hs => (hl.mapped hs).vacate hcell⟩
  rw [cellAt_vacate] at hd
  split at hd
  · cases hd
  · exact hl.below j d hd

theorem replace {wrapped : Bool} (hl : h.Laid limit) (hc : h.cell? r = some c)
    (hf : c.SameFrame c') : Laid { h.setCell r.index (some c') with wrapped } limit := by
  have hchange : h.Change True none { h.setCell r.index (some c') with wrapped } := .replace hc hf
  refine ⟨hl.pos, hl.sound.change hchange, fun j d hd => ?_,
    fun hs => (hl.mapped hs).change trivial hchange⟩
  rw [cellAt_replace hc] at hd
  split at hd
  · cases hd
    have hold := hl.below _ _ (cell?_iff_cellAt.1 hc).2
    simpa [Block.size, hf.base, hf.words] using hold
  · exact hl.below j d hd

theorem pin {g : Guard} (hl : h.Laid limit) (hp : h.pin r = .ok (g, h')) : h'.Laid limit := by
  obtain ⟨c, hc, -, rfl⟩ := exists_of_pin hp
  exact hl.replace hc ⟨rfl, rfl, rfl, rfl⟩

theorem unpin (hl : h.Laid limit) (g : Guard) : (h.unpin g).Laid limit := by
  unfold Heap.unpin
  cases hc : h.cell? g.ref with
  | none => exact hl
  | some c => exact hl.replace hc ⟨rfl, rfl, rfl, rfl⟩

theorem move {base limit' : Nat} (hl : h.Laid limit) (hc : h.cellAt i = some c)
    (hlays : h.Lays limit base c.block.size limit') : (h.move i c base).Laid limit' := by
  have hle : limit ≤ limit' := Nat.le_of_add_right_le hlays.grows
  refine ⟨Nat.lt_of_lt_of_le hl.pos hle, hl.sound.move hc, fun j d hd => ?_, fun hs => ?_⟩
  · rw [cellAt_move hc] at hd
    split at hd
    · cases hd
      exact ⟨(hl.below i c hc).1, hlays.below⟩
    · exact (hl.below j d hd).imp_right (Nat.le_trans · hle)
  · exact (hl.mapped (Nat.le_trans hle hs)).move hc (hl.vacant hlays hs)

theorem step {limit' : Nat} (hl : h.Laid limit) (hs : h.LaidStep limit h' limit') :
    h'.Laid limit' := by
  cases hs with
  | insert _ hpos hlays => exact hl.insert hpos hlays
  | free hf => exact hl.free hf
  | write hw =>
    obtain ⟨r, c, b, hc, hb, rfl⟩ := hw
    exact hl.replace hc ⟨rfl, rfl, rfl, hb⟩
  | move hm hlays => exact hl.move (movable?_eq_some_iff.1 hm).1 hlays

theorem stage (hl : h.Laid limit) (a : Allocator) (n : Nat) :
    (a.stage h limit n).1.Laid (a.stage h limit n).2 :=
  Allocator.stage_induction hl (fun _ _ _ _ hl hm => hl.step (.move hm (a.lays _ _ _))) n

/-- In a collection each block is laid clear of those that are live at its turn. -/
theorem clears (hl : h.Laid limit) (a : Allocator) : h.Clears (a.place h limit) := by
  intro i _ c hc
  have hm : (a.stage h limit i).1.movable? i = some c := by
    rw [← a.foldl_moveSlot_place, movable?_foldl_moveSlot (by simp)]
    exact hc
  rw [a.foldl_moveSlot_place, Allocator.place_of_some hm]
  exact (a.lays _ _ _).clear (hl.stage a i).isBelow

end Laid

end Heap

/-- All blocks lie at addresses, and no count of pins has wrapped. -/
structure Host.Roomy (h : Host) : Prop where
  room : h.addressLimit ≤ UInt64.size
  unwrapped : h.heap.wrapped = false

theorem Host.laid_ofProgram {program : Program} (h : 0 < program.layout.first) :
    (ofProgram program).heap.Laid (ofProgram program).addressLimit :=
  ⟨h, Heap.sound_empty, fun i c hc => by simp [ofProgram, Heap.cellAt] at hc,
    fun _ => Heap.mapped_empty⟩

/-- Whatever is done, blocks lie below the limit, which never goes back. A program within a hook has
a heap and a limit of its own. -/
theorem Moves.laid {X Y : List Holding} {m m' : Machine} (hm : Moves X m Y m')
    (hl : m.host.heap.Laid m.host.addressLimit) :
    m'.host.heap.Laid m'.host.addressLimit ∧ m.host.addressLimit ≤ m'.host.addressLimit := by
  induction hm with
  | trans _ _ ih₁ ih₂ =>
    obtain ⟨hl₁, hle₁⟩ := ih₁ hl
    obtain ⟨hl₂, hle₂⟩ := ih₂ hl₁
    exact ⟨hl₂, Nat.le_trans hle₁ hle₂⟩
  | quiet hq _ =>
    refine ⟨?_, hq.addressLimit⟩
    rw [show _ = _ from congrArg Host.heap hq.rest]
    exact hl.mono hq.addressLimit
  | heap hs => exact ⟨hl.step hs, hs.le⟩
  | pin hp => exact ⟨hl.pin hp, Nat.le_refl _⟩
  | @unpin X m g => exact ⟨hl.unpin g, Nat.le_refl _⟩
  | callback hc =>
    cases waited_of_answerInnermost hc with
    | cons hh _ =>
      rw [hh.rest]
      exact ⟨hl, Nat.le_refl _⟩
  | hook _ ih => exact ih hl
  | nested hn _ =>
    rw [hn.around.waited_leave.1.rest]
    exact ⟨hl, Nat.le_refl _⟩
  | @cache X m =>
    obtain ⟨r, b, he⟩ := m.host.modifyReplacements_eq _
    rw [Machine.withHost, he]
    exact ⟨hl, Nat.le_refl _⟩
  | _ => exact ⟨hl, Nat.le_refl _⟩

theorem Moves.roomy {X Y : List Holding} {m m' : Machine} (hm : Moves X m Y m')
    (hl : m.host.heap.Laid m.host.addressLimit) (hr : m'.host.Roomy) : m.host.Roomy :=
  ⟨Nat.le_trans (hm.laid hl).2 hr.room, hm.wrapped hr.unwrapped⟩

end AccelHost
