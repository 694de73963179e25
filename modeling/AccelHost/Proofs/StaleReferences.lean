import AccelHost.Proofs.HeapRuns
import Mathlib.Data.Nat.ModEq

/-!
Stale references are recognised. The generation of a slot counts how often its cell was freed, in
32 bits, and a reference is taken only while its slot holds a cell in the reference's generation.
So a reference that was freed stands for no other cell before the count has come all the way round.
-/
namespace AccelHost

def ParamKind.isReference : ParamKind → Bool
  | object | array _ | receiver => true
  | void | prim _ => false

namespace Heap

variable {h h' : Heap} {r : ObjRef} {c : Cell} {i : Nat}

/-- A reference is stale: whatever is asked about it is refused for that, its address and a call
that is given it too, and nothing changes. -/
structure Refuses (h : Heap) (r : ObjRef) : Prop where
  request : ∀ q : HeapRequest, q.target? = some r → h.perform q = (.error (.invalidReference r), h)
  address : h.address r = .error (.invalidReference r)
  argument : ∀ (s : Marshalled) (m : Method) (index : Nat) (kind : ParamKind), s.heap = h →
    kind.isReference = true →
      s.add m index kind (.ref (some r)) = (some (.invalidReference r), s)

/-- A reference is not stale: whatever is refused is refused for another reason. -/
structure Takes (h : Heap) (r : ObjRef) : Prop where
  request : ∀ q : HeapRequest, q.target? = some r → ∀ r',
    (h.perform q).1 ≠ .error (.invalidReference r')
  address : ∃ a, h.address r = .ok a
  argument : ∀ (s : Marshalled) (m : Method) (index : Nat) (kind : ParamKind), s.heap = h →
    kind.isReference = true →
      ∀ r', (s.add m index kind (.ref (some r))).1 ≠ some (.invalidReference r')

theorem perform_of_none (hc : h.cell? r = none) {q : HeapRequest} (hq : q.target? = some r) :
    h.perform q = (.error (.invalidReference r), h) := by
  have hget := get_of_none hc
  cases q with
  | newObject | newArray | newArrayFrom | unpin | relocate | poke => cases hq
  | free =>
    cases hq
    simp [perform, freeCell, hget, HeapRequest.change]
  | kind =>
    cases hq
    simp [perform, Heap.kind, hget, HeapRequest.ask, Except.map]
  | arrayLength =>
    cases hq
    simp [perform, arrayLength, hget, HeapRequest.ask, Except.map]
  | readArray =>
    cases hq
    simp [perform, readArray, arrayCell, hget, HeapRequest.ask, Except.map]
  | writeArray =>
    cases hq
    simp [perform, writeArray, arrayCell, hget, HeapRequest.change]
  | readField =>
    cases hq
    simp [perform, readField, fieldCell, hget, HeapRequest.ask, Except.map]
  | writeField =>
    cases hq
    simp [perform, writeField, fieldCell, hget, HeapRequest.change, Except.map]
  | pin =>
    cases hq
    simp [perform, pin_of_none hc]

/-- A stale argument is refused where it would be pinned or its kind looked at. -/
theorem add_of_none {s : Marshalled} {m : Method} {index : Nat} {kind : ParamKind}
    (hc : s.heap.cell? r = none) (hk : kind.isReference = true) :
    s.add m index kind (.ref (some r)) = (some (.invalidReference r), s) := by
  have hget := get_of_none hc
  cases kind with
  | void | prim => cases hk
  | object | receiver => simp [Marshalled.add, Marshalled.pin, pin_of_none hc]
  | array => simp [Marshalled.add, Heap.kind, hget, Except.map]

theorem refuses_of_none (hc : h.cell? r = none) : h.Refuses r := by
  have hget := get_of_none hc
  refine ⟨fun q hq => perform_of_none hc hq, by simp [address, hget, Except.map], ?_⟩
  intro s m index kind hs hk
  exact add_of_none (hs ▸ hc) hk

theorem perform_of_some (hc : h.cell? r = some c) {q : HeapRequest} (hq : q.target? = some r)
    (r' : ObjRef) : (h.perform q).1 ≠ .error (.invalidReference r') := by
  have hget := get_of_some hc
  cases q with
  | newObject | newArray | newArrayFrom | unpin | relocate | poke => cases hq
  | free =>
    cases hq
    by_cases hp : 0 < c.pins <;> simp [perform, freeCell, hget, HeapRequest.change, hp]
  | kind =>
    cases hq
    simp [perform, Heap.kind, hget, HeapRequest.ask, Except.map]
  | arrayLength =>
    cases hq
    cases hk : c.kind <;> simp [perform, arrayLength, hget, HeapRequest.ask, Except.map, hk]
  | readArray k =>
    cases hq
    by_cases hk : c.kind = .array k <;>
      simp [perform, readArray, arrayCell, hget, HeapRequest.ask, Except.map, hk]
  | writeArray k _ values =>
    cases hq
    by_cases hk : c.kind = .array k
    · by_cases hl : c.length < values.length <;>
        simp [perform, writeArray, arrayCell, hget, HeapRequest.change, hk, hl]
    · simp [perform, writeArray, arrayCell, hget, HeapRequest.change, hk]
  | readField _ index =>
    cases hq
    cases hk : c.kind with
    | array k => simp [perform, readField, fieldCell, hget, HeapRequest.ask, Except.map, hk]
    | ofClass className =>
      by_cases hi : index < c.length <;>
        simp [perform, readField, fieldCell, hget, HeapRequest.ask, Except.map, hk, hi]
  | writeField _ index value =>
    cases hq
    cases hk : c.kind with
    | array k => simp [perform, writeField, fieldCell, hget, HeapRequest.change, Except.map, hk]
    | ofClass className =>
      by_cases hi : index < c.length <;>
        simp [perform, writeField, fieldCell, hget, HeapRequest.change, Except.map, hk, hi]
  | pin =>
    cases hq
    simp [perform, pin_of_some hc]

theorem add_of_some {s : Marshalled} {m : Method} {index : Nat} {kind : ParamKind}
    (hc : s.heap.cell? r = some c) (hk : kind.isReference = true) (r' : ObjRef) :
    (s.add m index kind (.ref (some r))).1 ≠ some (.invalidReference r') := by
  have hget := get_of_some hc
  cases kind with
  | void | prim => cases hk
  | object | receiver => simp [Marshalled.add, Marshalled.pin, pin_of_some hc]
  | array k =>
    by_cases hck : c.kind = .array k
    · simp only [Marshalled.add, Heap.kind, hget, Except.map, hck, ↓reduceIte, Marshalled.pin,
        pin_of_some hc]
      split <;> simp
    · simp [Marshalled.add, Heap.kind, hget, Except.map, hck]

theorem takes_of_some (hc : h.cell? r = some c) : h.Takes r := by
  have hget := get_of_some hc
  refine ⟨fun q hq => perform_of_some hc hq, ⟨c.base, by simp [address, hget, Except.map]⟩, ?_⟩
  intro s m index kind hs hk
  exact add_of_some (hs ▸ hc) hk

/-! ### Generations count -/

theorem Change.generationAt_eq {fits : Prop} {f : Option Nat} (hc : h.Change fits f h') :
    h'.generationAt i = h.generationAt i + if f = some i then 1 else 0 := by
  cases hc with
  | same => simp
  | insert => simp
  | @free r c hc =>
    rw [generationAt_vacate (lt_of_cellAt (cell?_iff_cellAt.1 hc).2)]
    by_cases hi : i = r.index
    · simp [hi]
    · simp [hi, Ne.symm hi]
  | @replace r c c' wrapped hc _ =>
    have hset : (h.setCell r.index (some c')).generationAt i = h.generationAt i :=
      generationAt_setCell
    simp only [reduceCtorEq, ↓reduceIte, UInt32.add_zero]
    exact hset
  | @relocate place hr =>
    have hmoved : (h.relocate place).2.generationAt i = h.generationAt i :=
      relocate_induction (P := fun h' => h'.generationAt i = h.generationAt i) rfl
        fun h' j c hP _ _ => generationAt_move.trans hP
    simpa using hmoved

theorem Change.isSome_cellAt {fits : Prop} {f : Option Nat} (hc : h.Change fits f h')
    (hs : h.Sound) (hsome : (h.cellAt i).isSome) (hf : f ≠ some i) : (h'.cellAt i).isSome := by
  cases hc with
  | same => exact hsome
  | insert =>
    rw [cellAt_insert hs]
    split
    · rfl
    · exact hsome
  | free hc =>
    have hi : i ≠ _ := fun hi => hf (congrArg some hi.symm)
    rw [cellAt_vacate, if_neg hi]
    exact hsome
  | replace hc _ =>
    rw [cellAt_replace hc]
    split
    · rfl
    · exact hsome
  | @relocate place hr =>
    refine relocate_induction (P := fun h' => (h'.cellAt i).isSome) hsome fun h' j c hP hc _ => ?_
    rw [cellAt_move hc]
    split
    · rfl
    · exact hP

theorem generationAt_run {qs : List HeapRequest} :
    (h.run qs).2.generationAt i = h.generationAt i + UInt32.ofNat (frees i h qs) := by
  induction qs generalizing h with
  | nil => simp [run, HeapRequest.run, frees]
  | cons q qs ih =>
    have hstep : (h.perform q).2.generationAt i =
        h.generationAt i + if h.freed? q = some i then 1 else 0 :=
      (h.change_perform q).generationAt_eq
    have hrest : (h.run (q :: qs)).2 = ((h.perform q).2.run qs).2 := rfl
    rw [hrest, ih, hstep, frees, UInt32.ofNat_add, UInt32.add_assoc]
    by_cases hf : h.freed? q = some i <;> simp [hf]

theorem isSome_cellAt_run {qs : List HeapRequest} (hs : h.Sound) (hsome : (h.cellAt i).isSome)
    (hnever : frees i h qs = 0) : ((h.run qs).2.cellAt i).isSome := by
  induction qs generalizing h with
  | nil => exact hsome
  | cons q qs ih =>
    rw [frees, Nat.add_eq_zero_iff] at hnever
    have hf : h.freed? q ≠ some i := fun hf => by simp [hf] at hnever
    have hstep := (h.change_perform q).isSome_cellAt hs hsome hf
    exact ih (hs.change (h.change_perform q)) hstep hnever.2

theorem change_ne_allocated {s : Heap} {x : Except DispatchError Heap} :
    (HeapRequest.change s x).1 ≠ .ok (.allocated r) := by
  cases x <;> simp [HeapRequest.change]

theorem insert_of_allocated {q : HeapRequest} (hq : (h.perform q).1 = .ok (.allocated r)) :
    ∃ c, (h.insert c).1 = r ∧ (h.perform q).2 = (h.insert c).2 := by
  cases q with
  | newObject className fields base => exact ⟨_, by simpa [perform, newObject] using hq, rfl⟩
  | newArray k length base => exact ⟨_, by simpa [perform, newArray] using hq, rfl⟩
  | newArrayFrom k values base => exact ⟨_, by simpa [perform, newArrayFrom] using hq, rfl⟩
  | kind | arrayLength | readArray | readField =>
    simp only [perform, HeapRequest.ask] at hq
    obtain ⟨_, _, ha⟩ := exists_of_map_eq_ok hq
    cases ha
  | free | writeArray | writeField => exact absurd hq change_ne_allocated
  | pin r' =>
    simp only [perform] at hq
    cases hp : h.pin r' <;> simp [hp] at hq
  | unpin g => simp [perform] at hq
  | relocate place => simp [perform] at hq
  | poke address width word => simp [perform] at hq

/-! ### What a reference stands for -/

theorem ofNat_eq_iff_modEq {n : Nat} {g : UInt32} :
    UInt32.ofNat n = g ↔ n ≡ g.toNat [MOD 2 ^ 32] := by
  rw [← UInt32.toNat_inj, UInt32.toNat_ofNat', Nat.ModEq, Nat.mod_eq_of_lt g.toNat_lt]

theorem dvd_of_add_ofNat_eq {n : Nat} {g : UInt32} (hg : g + UInt32.ofNat n = g) : 2 ^ 32 ∣ n := by
  have hzero : UInt32.ofNat n = 0 := by simpa using hg
  rw [ofNat_eq_iff_modEq] at hzero
  exact (Nat.modEq_zero_iff_dvd).1 hzero

/-- A reference is taken if and only if its slot holds a cell and was freed as often as its
generation tells, but for full rounds. -/
theorem takes_or_refuses (qs : List HeapRequest) (r : ObjRef) :
    let h := (Heap.run {} qs).2
    let live := (h.cellAt r.index).isSome ∧ frees r.index {} qs ≡ r.generation.toNat [MOD 2 ^ 32]
    (live → h.Takes r) ∧ (¬live → h.Refuses r) := by
  intro h live
  have hgen : h.generationAt r.index = UInt32.ofNat (frees r.index {} qs) := by
    have hrun : h.generationAt r.index =
        generationAt {} r.index + UInt32.ofNat (frees r.index {} qs) := generationAt_run
    simpa [generationAt] using hrun
  constructor
  · rintro ⟨hsome, hmod⟩
    obtain ⟨c, hc⟩ := Option.isSome_iff_exists.1 hsome
    exact takes_of_some (cell?_iff_cellAt.2 ⟨hgen.trans (ofNat_eq_iff_modEq.2 hmod), hc⟩)
  · intro hdead
    cases hc : h.cell? r with
    | none => exact refuses_of_none hc
    | some c =>
      obtain ⟨hg, hcell⟩ := cell?_iff_cellAt.1 hc
      have hlive : live := ⟨by simp [hcell], ofNat_eq_iff_modEq.1 (hgen.symm.trans hg)⟩
      exact absurd hlive hdead

theorem generationAt_of_allocated {q : HeapRequest} (hq : (h.perform q).1 = .ok (.allocated r)) :
    (h.perform q).2.generationAt r.index = r.generation := by
  obtain ⟨c, rfl, he⟩ := insert_of_allocated hq
  rw [he, generationAt_insert, insert_fst]

/-- The slot of a reference that was issued is in the same generation again only after full rounds
of frees. -/
theorem dvd_frees_of_issued {between : List HeapRequest}
    (hissued : h.generationAt r.index = r.generation)
    (hg : (h.run between).2.generationAt r.index = r.generation) :
    2 ^ 32 ∣ frees r.index h between := by
  rw [generationAt_run, hissued] at hg
  exact dvd_of_add_ofNat_eq hg

/-- A reference that is issued again was freed meanwhile: without that its cell would still be in
the slot which a new cell has just been given. -/
theorem frees_pos_of_reissued {q q' : HeapRequest} {between : List HeapRequest} (hs : h.Sound)
    (hq : (h.perform q).1 = .ok (.allocated r))
    (hq' : (((h.perform q).2.run between).2.perform q').1 = .ok (.allocated r)) :
    0 < frees r.index (h.perform q).2 between := by
  refine Nat.pos_of_ne_zero fun hnever => ?_
  obtain ⟨c, hc, he⟩ := insert_of_allocated hq
  obtain ⟨c', hc', _⟩ := insert_of_allocated hq'
  have hs₁ : (h.perform q).2.Sound := hs.change (h.change_perform q)
  have hsome : ((h.perform q).2.cellAt r.index).isSome := by
    have hslot : r.index = h.nextSlot := by rw [← hc, insert_fst]
    rw [he, cellAt_insert hs, if_pos hslot]
    rfl
  have hstill := isSome_cellAt_run hs₁ hsome hnever
  have hindex : r.index = ((h.perform q).2.run between).2.nextSlot := by rw [← hc', insert_fst]
  rw [hindex, (hs₁.run).cellAt_nextSlot] at hstill
  cases hstill

/-- Stale references are recognised, up to full rounds of generations. After any requests, a
reference is taken by every operation and as every argument if its slot holds a cell and the number
of times that the slot was freed so far agrees with its generation modulo `2 ^ 32`; otherwise each
refuses it as invalid and changes nothing. So if a reference that was issued has been freed since
and yet is not refused, or if it is issued again, its slot was freed a positive multiple of `2 ^ 32`
times meanwhile. -/
theorem stale_references_recognised (qs : List HeapRequest) :
    let h := (Heap.run {} qs).2
    (∀ r, let live := (h.cellAt r.index).isSome ∧
        frees r.index {} qs ≡ r.generation.toNat [MOD 2 ^ 32]
      (live → h.Takes r) ∧ (¬live → h.Refuses r)) ∧
    ∀ q r between, (h.perform q).1 = .ok (.allocated r) →
      let h₁ := (h.perform q).2
      let h₂ := (h₁.run between).2
      (0 < frees r.index h₁ between → ¬h₂.Refuses r →
        ∃ rounds, 0 < rounds ∧ frees r.index h₁ between = rounds * 2 ^ 32) ∧
      ∀ q', (h₂.perform q').1 = .ok (.allocated r) →
        ∃ rounds, 0 < rounds ∧ frees r.index h₁ between = rounds * 2 ^ 32 := by
  intro h
  refine ⟨takes_or_refuses qs, fun q r between hq => ?_⟩
  intro h₁ h₂
  have hrounds : h₂.generationAt r.index = r.generation → 0 < frees r.index h₁ between →
      ∃ rounds, 0 < rounds ∧ frees r.index h₁ between = rounds * 2 ^ 32 := by
    intro hg hpos
    have hdvd : 2 ^ 32 ∣ frees r.index h₁ between :=
      dvd_frees_of_issued (generationAt_of_allocated hq) hg
    obtain ⟨rounds, hr⟩ := hdvd
    exact ⟨rounds, by omega, by omega⟩
  refine ⟨fun hpos htaken => ?_, fun q' hq' => ?_⟩
  · cases hc : h₂.cell? r with
    | none => exact absurd (refuses_of_none hc) htaken
    | some c => exact hrounds (cell?_iff_cellAt.1 hc).1 hpos
  · obtain ⟨c', hc', _⟩ := insert_of_allocated hq'
    have hg : h₂.generationAt r.index = r.generation := by rw [← hc', insert_fst]
    exact hrounds hg (frees_pos_of_reissued sound_empty.run hq hq')

end Heap

end AccelHost
