import AccelHost.Proofs.RoundTrip
import AccelHost.Proofs.StaleReferences
import AccelHost.Proofs.Unpinning

/-!
References that native code returns. The address in the register is looked up in the heap as the
native function left it, wherever the blocks lie by then, and stands for the live cell whose block
it lies in. So a reference that comes back is live. That of a cell which was freed meanwhile does
not come back, unless the generations of its slot went full circle since.
-/
namespace AccelHost

open Holding

/-! ### What an address stands for -/

namespace Heap

/-- A live cell whose block holds an address. -/
structure Lies (h : Heap) (address : Nat) (r : ObjRef) (c : Cell) : Prop where
  live : h.cell? r = some c
  base_le : c.base ≤ address
  lt_end : address < c.base + 8 * c.block.words

/-- What an address stands for where a result of a kind is due. -/
inductive StandsFor (h : Heap) (method : Method) (due : ParamKind) (address : UInt64) :
    Except DispatchError (Option Value) → Prop where
  | null : address = 0 → StandsFor h method due address (.ok (some .null))
  | cell {r : ObjRef} {c : Cell} : h.Lies address.toNat r c →
      (∀ k, due = .array k → c.kind = .array k) →
      StandsFor h method due address (.ok (some (.ref (some r))))
  | mismatch {r : ObjRef} {c : Cell} {k : ElemKind} : h.Lies address.toNat r c →
      due = .array k → c.kind ≠ .array k →
      StandsFor h method due address (.error (.returnMismatch method k c.kind))
  | unknown : address ≠ 0 → (∀ r c, ¬h.Lies address.toNat r c) →
      StandsFor h method due address (.error (.unknownReference method address))

variable {h h' : Heap} {r : ObjRef} {c : Cell} {address : UInt64} {method : Method}
  {due : ParamKind} {x : Except DispatchError (Option Value)}

theorem Lies.kind_eq (hl : h.Lies address.toNat r c) : h.kind r = .ok c.kind := by
  rw [kind, get_of_some hl.live]
  rfl

theorem StandsFor.live (hs : h.StandsFor method due address (.ok (some (.ref (some r))))) :
    ∃ c, h.cell? r = some c := by
  cases hs with
  | cell hl => exact ⟨_, hl.live⟩

namespace Mapped

theorem resolveAddress_eq_some_iff_lies (hm : h.Mapped) {a : Nat} :
    h.resolveAddress a = some r ↔ ∃ c, h.Lies a r c := by
  rw [hm.resolveAddress_eq_some_iff]
  exact ⟨fun ⟨c, hc, hle, hlt⟩ => ⟨c, hc, hle, hlt⟩,
    fun ⟨c, hl⟩ => ⟨c, hl.live, hl.base_le, hl.lt_end⟩⟩

theorem ne_zero_of_lies (hm : h.Mapped) (hl : h.Lies address.toNat r c) : address ≠ 0 := by
  have hpos := (hm.placed _ c (cell?_iff_cellAt.1 hl.live).2).1
  rintro rfl
  have hle := hl.base_le
  rw [UInt64.toNat_zero] at hle
  omega

end Mapped

end Heap

namespace CallPlan

variable {h : Heap} {e : Entry} {func : CodeRef} {address : UInt64}
  {x : Except DispatchError (Option Value)}

theorem value_of_lies {r : ObjRef} {c : Cell} (hm : h.Mapped)
    (hdue : e.convention.result.isReference = true) (hl : h.Lies address.toNat r c) :
    (ofEntry e func).value h address =
      match e.convention.result with
      | .array k =>
        if c.kind = .array k then .ok (some (.ref (some r)))
        else .error (.returnMismatch e.method k c.kind)
      | _ => .ok (some (.ref (some r))) := by
  have hfound := hm.resolveAddress_eq_some_iff_lies.2 ⟨c, hl⟩
  unfold value refResult
  simp only [ofEntry, if_neg (hm.ne_zero_of_lies hl), hfound]
  cases hres : e.convention.result with
  | void | prim => simp [hres, ParamKind.isReference] at hdue
  | object | receiver => rfl
  | array k =>
    simp only [NativeType.ofResult, hl.kind_eq]
    split <;> rfl

/-- An address that comes back where a reference is due results in what it stands for, and in
nothing else. -/
theorem value_eq_iff (hm : h.Mapped) (hdue : e.convention.result.isReference = true) :
    (ofEntry e func).value h address = x ↔
      h.StandsFor e.method e.convention.result address x := by
  have hpointer : NativeType.ofResult e.convention.result = .pointer := by
    cases hres : e.convention.result <;> simp_all [ParamKind.isReference, NativeType.ofResult]
  constructor
  · rintro rfl
    by_cases hzero : address = 0
    · subst hzero
      have hnull : (ofEntry e func).value h 0 = .ok (some .null) := by
        simp [value, refResult, ofEntry, hpointer, Except.map]
      rw [hnull]
      exact .null rfl
    · cases hfound : h.resolveAddress address.toNat with
      | none =>
        have hvalue : (ofEntry e func).value h address =
            .error (.unknownReference e.method address) := by
          simp [value, refResult, ofEntry, hpointer, hzero, hfound, Except.map]
        rw [hvalue]
        refine .unknown hzero fun r c hl => ?_
        rw [hm.resolveAddress_eq_some_iff_lies.2 ⟨c, hl⟩] at hfound
        cases hfound
      | some r =>
        obtain ⟨c, hl⟩ := hm.resolveAddress_eq_some_iff_lies.1 hfound
        rw [value_of_lies hm hdue hl]
        split
        · rename_i k hk
          split
          · rename_i hkind
            exact .cell hl fun k' hk' => by cases hk.symm.trans hk'; exact hkind
          · rename_i hkind
            exact .mismatch hl hk hkind
        · rename_i hother
          exact .cell hl fun k hk => absurd hk (hother k)
  · intro hs
    cases hs with
    | null hzero =>
      subst hzero
      simp [value, refResult, ofEntry, hpointer, Except.map]
    | cell hl hkind =>
      rw [value_of_lies hm hdue hl]
      split
      · rename_i k hk
        rw [if_pos (hkind k hk)]
      · rfl
    | mismatch hl hk hkind =>
      rw [value_of_lies hm hdue hl, hk]
      exact if_neg hkind
    | unknown hzero hno =>
      have hfound : h.resolveAddress address.toNat = none := by
        cases hfound : h.resolveAddress address.toNat with
        | none => rfl
        | some r =>
          obtain ⟨c, hl⟩ := hm.resolveAddress_eq_some_iff_lies.1 hfound
          exact absurd hl (hno r c)
      simp [value, refResult, ofEntry, hpointer, hzero, hfound, Except.map]

end CallPlan

/-! ### How slots age -/

def Heap.held (h : Heap) (i : Nat) : Nat := (h.cellAt i).toList.length

/-- A slot is freed so many times. Every time but the first it was given a new cell before, which
raised the limit of the addresses by a word at least. -/
structure Host.Ages (i n : Nat) (h h' : Host) : Prop where
  generation : h'.heap.generationAt i = h.heap.generationAt i + UInt32.ofNat n
  room : h.addressLimit + 8 * (n + h'.heap.held i) ≤ h'.addressLimit + 8 * h.heap.held i
  stays : n = 0 → h.heap.held i ≤ h'.heap.held i

namespace Host.Ages

variable {i n n' : Nat} {h h' h'' : Host}

theorem trans (ha : Ages i n h h') (ha' : Ages i n' h' h'') : Ages i (n + n') h h'' where
  generation := by rw [ha'.generation, ha.generation, UInt32.ofNat_add, UInt32.add_assoc]
  room := by
    have h₁ := ha.room
    have h₂ := ha'.room
    omega
  stays hz := by
    have h₁ := ha.stays (by omega)
    have h₂ := ha'.stays (by omega)
    omega

theorem of_held (hg : h'.heap.generationAt i = h.heap.generationAt i)
    (hc : h'.heap.held i = h.heap.held i) (hn : h.addressLimit ≤ h'.addressLimit) :
    Ages i 0 h h' where
  generation := by simpa using hg
  room := by omega
  stays _ := by omega

theorem of_heap (hh : h'.heap = h.heap) (hn : h.addressLimit ≤ h'.addressLimit) : Ages i 0 h h' :=
  .of_held (by rw [hh]) (by rw [hh]) hn

theorem of_setCell {r : ObjRef} {c c' : Cell} {wrapped : Bool} (hc : h.heap.cell? r = some c)
    (hh : h'.heap = { h.heap.setCell r.index (some c') with wrapped })
    (hn : h.addressLimit ≤ h'.addressLimit) : Ages i 0 h h' := by
  have hcell := (Heap.cell?_iff_cellAt.1 hc).2
  have hgen : h'.heap.generationAt i = h.heap.generationAt i := by
    rw [hh]
    exact Heap.generationAt_setCell
  refine .of_held hgen ?_ hn
  have hset : h'.heap.cellAt i = if i = r.index then some c' else h.heap.cellAt i := by
    rw [hh]
    exact Heap.cellAt_setCell (Heap.lt_of_cellAt hcell)
  rw [Heap.held, Heap.held, hset]
  split
  · rename_i hi
    rw [hi, hcell]
    rfl
  · rfl

/-- A slot ages when it is freed, and is given a cell only while it has none. -/
theorem of_step {heap : Heap} {addressLimit : Nat} (hs : h.heap.Sound)
    (hstep : h.heap.LaidStep h.addressLimit heap addressLimit) :
    ∃ n, Ages i n h { h with heap, addressLimit } := by
  cases hstep with
  | @insert c _ _ hpos hlays =>
    have hgrows := hlays.grows
    refine ⟨0, by simp, ?_, fun _ => ?_⟩
    all_goals
      simp only [Heap.held, Heap.cellAt_insert hs]
      by_cases hi : i = h.heap.nextSlot
      · simp only [hi, hs.cellAt_nextSlot, ↓reduceIte, Option.toList_some, Option.toList_none,
          List.length_singleton, List.length_nil]
        simp only [Block.size] at hgrows hpos
        omega
      · simp only [hi, ↓reduceIte]
        omega
  | @free r _ hf =>
    obtain ⟨c, hc, _, rfl⟩ := Heap.freeCell_eq_ok_iff.1 hf
    have hcell := (Heap.cell?_iff_cellAt.1 hc).2
    have hgen : (h.heap.vacate r.index c.base).generationAt i =
        h.heap.generationAt i + if i = r.index then 1 else 0 :=
      Heap.generationAt_vacate (Heap.lt_of_cellAt hcell)
    by_cases hi : i = r.index
    · refine ⟨1, by rw [hgen, if_pos hi]; rfl, ?_, fun hz => by cases hz⟩
      simp [Heap.held, Heap.cellAt_vacate, hi, hcell]
    · exact ⟨0, .of_held (by simpa [hi] using hgen) (by simp [Heap.held, Heap.cellAt_vacate, hi])
        (Nat.le_refl _)⟩
  | write hw =>
    obtain ⟨r, c, b, hc, _, rfl⟩ := hw
    exact ⟨0, .of_setCell hc rfl (Nat.le_refl _)⟩
  | @move j c base _ hm hlays =>
    have hc := (Heap.movable?_eq_some_iff.1 hm).1
    refine ⟨0, .of_held Heap.generationAt_move ?_ (Nat.le_of_add_right_le hlays.grows)⟩
    simp only [Heap.held, Heap.cellAt_move hc]
    split
    · rename_i hi
      rw [hi, hc]
      rfl
    · rfl

end Host.Ages

theorem Moves.ages {X Y : List Holding} {m m' : Machine} (hm : Moves X m Y m')
    (hl : m.host.heap.Laid m.host.addressLimit) (i : Nat) : ∃ n, m.host.Ages i n m'.host := by
  induction hm with
  | trans h₁ _ ih₁ ih₂ =>
    obtain ⟨n₁, ha₁⟩ := ih₁ hl
    obtain ⟨n₂, ha₂⟩ := ih₂ (h₁.laid hl).1
    exact ⟨n₁ + n₂, ha₁.trans ha₂⟩
  | quiet hq _ =>
    exact ⟨0, .of_heap (by rw [show _ = _ from congrArg Host.heap hq.rest]) hq.addressLimit⟩
  | heap hs => exact Host.Ages.of_step hl.sound hs
  | pin hp =>
    obtain ⟨c, hc, -, rfl⟩ := Heap.exists_of_pin hp
    exact ⟨0, .of_setCell hc rfl (Nat.le_refl _)⟩
  | @unpin X m g =>
    cases hc : m.host.heap.cell? g.ref with
    | none => exact ⟨0, .of_heap (Heap.unpin_of_none hc) (Nat.le_refl _)⟩
    | some c => exact ⟨0, .of_setCell hc (Heap.unpin_of_some hc) (Nat.le_refl _)⟩
  | callback hc =>
    cases waited_of_answerInnermost hc with
    | cons hh _ => exact ⟨0, .of_heap (by rw [hh.rest]) (by rw [hh.rest])⟩
  | hook _ ih =>
    obtain ⟨n, ha⟩ := ih hl
    exact ⟨n, ha.generation, ha.room, ha.stays⟩
  | nested hn _ =>
    have hrest := hn.around.waited_leave.1.rest
    exact ⟨0, .of_heap (by rw [hrest]) (by rw [hrest])⟩
  | @cache X m =>
    obtain ⟨r, b, he⟩ := m.host.modifyReplacements_eq _
    exact ⟨0, .of_heap (by rw [Machine.withHost, he]) (by rw [Machine.withHost, he])⟩
  | _ => exact ⟨0, .of_heap rfl (Nat.le_refl _)⟩

/-- A reference that is live, is stale later and is live again has had its slot freed through all
generations, and a new block laid for each. -/
theorem Moves.room_of_live_again {X Y Z : List Holding} {m₁ m₂ m₃ : Machine} {r : ObjRef}
    {c c' : Cell} (h₁ : Moves X m₁ Y m₂) (h₂ : Moves Y m₂ Z m₃)
    (hl : m₁.host.heap.Laid m₁.host.addressLimit) (hlive : m₁.host.heap.cell? r = some c)
    (hstale : m₂.host.heap.cell? r = none) (hagain : m₃.host.heap.cell? r = some c') :
    m₁.host.addressLimit + 8 * 2 ^ 32 ≤ m₃.host.addressLimit := by
  obtain ⟨n₁, ha₁⟩ := h₁.ages hl r.index
  obtain ⟨n₂, ha₂⟩ := h₂.ages (h₁.laid hl).1 r.index
  obtain ⟨hg, hcell⟩ := Heap.cell?_iff_cellAt.1 hlive
  obtain ⟨hg', hcell'⟩ := Heap.cell?_iff_cellAt.1 hagain
  have hheld : m₁.host.heap.held r.index = 1 := by simp [Heap.held, hcell]
  have hheld' : m₃.host.heap.held r.index = 1 := by simp [Heap.held, hcell']
  have hround : 2 ^ 32 ∣ n₁ + n₂ := by
    have hgen := (ha₁.trans ha₂).generation
    rw [hg, hg'] at hgen
    exact Heap.dvd_of_add_ofNat_eq hgen.symm
  have hfreed : n₁ ≠ 0 := by
    -- Without a free the slot would still hold a cell, and in the same generation.
    rintro rfl
    have hstays := ha₁.stays rfl
    have hgen := ha₁.generation
    rw [hg, show UInt32.ofNat 0 = 0 from rfl, UInt32.add_zero] at hgen
    cases hc : m₂.host.heap.cellAt r.index with
    | none => simp [Heap.held, hc, hcell] at hstays
    | some c₂ =>
      rw [Heap.cell?_iff_cellAt.2 ⟨hgen, hc⟩] at hstale
      cases hstale
  have hroom := (ha₁.trans ha₂).room
  obtain ⟨rounds, hrounds⟩ := hround
  omega

/-! ### Calls -/

/-- A call that begins at a machine and comes to a result and a machine returns what it should:
where its native function is entered, a reference is due and all blocks lie at addresses, the result
is just what the register stands for in the heap as the function left it. A reference that comes
back is taken by every operation, and if it was live at some point of the function but stale at a
later one, all generations of its slot were used up since. -/
def CallPlan.ReturnsSoundly (n : Nested) (p : CallPlan) (args : List Value) (m : Machine)
    (result : Except DispatchError (Option Value)) (m' : Machine) : Prop :=
  ∀ s code m₁, p.Enters args m s code m₁ → p.entry.convention.result.isReference = true →
    let register := (n.runCode code).result m₁
    let done := (n.runCode code).after m₁
    done.host.addressLimit ≤ UInt64.size →
    (∀ x, result = x ↔
      done.host.heap.StandsFor p.entry.method p.entry.convention.result register x) ∧
    ∀ r, result = .ok (some (.ref (some r))) →
      done.host.heap.Takes r ∧ m'.host.heap.Takes r ∧
      ∀ rest rest' m₂ m₃, n.Reaches code m₁ rest m₂ → n.Reaches rest m₂ rest' m₃ →
        m₂.host.heap.cell? r ≠ none → m₃.host.heap.cell? r = none →
        m₂.host.addressLimit + 8 * 2 ^ 32 ≤ done.host.addressLimit

theorem Heap.exists_cell?_unpinAll {h : Heap} {r : ObjRef} {c : Cell} (hc : h.cell? r = some c)
    (gs : List Guard) : ∃ c', (h.unpinAll gs).cell? r = some c' := by
  induction gs generalizing h c with
  | nil => exact ⟨c, hc⟩
  | cons g gs ih =>
    have hstep : ∃ c', (h.unpin g).cell? r = some c' := by
      rw [Heap.cell?_unpin, hc]
      split
      · exact ⟨_, rfl⟩
      · exact ⟨_, rfl⟩
    obtain ⟨c', hc'⟩ := hstep
    exact ih hc'

namespace Dispatch

variable {n : Nested} {G : List UnitHandle} {gs : List Guard} {m : Machine}

theorem returnsSoundly_call (hn : n.Lawful) (hm : m.Regular G gs) (e : Entry) (func : CodeRef)
    (args : List Value) : (CallPlan.ofEntry e func).ReturnsSoundly n args m
      ((call n (.ofEntry e func) args).result m) ((call n (.ofEntry e func) args).after m) := by
  intro s code m₁ he hdue register done hroom
  have hbegun := hm.enters he
  have hlaid : done.host.heap.Laid done.host.addressLimit := by
    have hrun : Moves [] m₁ [] done := hn.runCode code hbegun.orderly
    exact (hrun.laid hbegun.laid).1
  have hexact : ∀ x, (call n (.ofEntry e func) args).result m = x ↔
      done.host.heap.StandsFor e.method e.convention.result register x := by
    intro x
    rw [result_call_of_enters he]
    exact CallPlan.value_eq_iff (hlaid.mapped hroom) hdue
  refine ⟨hexact, fun r hr => ?_⟩
  obtain ⟨c, hc⟩ := ((hexact _).1 hr).live
  refine ⟨Heap.takes_of_some hc, ?_, ?_⟩
  · obtain ⟨c', hc'⟩ := Heap.exists_cell?_unpinAll hc s.guards
    rw [he.after_call]
    exact Heap.takes_of_some hc'
  · intro rest rest' m₂ m₃ h₂ h₃ hlive hstale
    obtain ⟨c₂, hc₂⟩ := Option.ne_none_iff_exists'.1 hlive
    -- The rest of the function is carried by moves too, from each of the two points.
    have hmoves₂ : Moves [] m₁ [] m₂ := h₂.moves hn hbegun.orderly
    have ho₂ : m₂.Orderly (units [] ++ G) := (hmoves₂.orderly hbegun.orderly).1
    have hmoves₃ : Moves [] m₂ [] m₃ := h₃.moves hn ho₂
    have hdone : Moves [] m₃ [] done := by
      have hrest : Moves [] m₃ [] ((n.runCode rest').after m₃) :=
        hn.runCode rest' (hmoves₃.orderly ho₂).1
      rwa [h₃.after_runCode, h₂.after_runCode] at hrest
    exact hmoves₃.room_of_live_again hdone (hmoves₂.laid hbegun.laid).1 hc₂ hstale hc

/-- The interpretation of an entry, whose call begins when it is lowered. -/
theorem returnsSoundly_interpret (hn : n.Lawful) (hm : m.Regular G gs) {e : Entry} {p : CallPlan}
    (hp : (lower n e).result m = .ok p) (args : List Value) :
    p.ReturnsSoundly n args ((lower n e).after m) ((interpret n e args).result m)
      ((interpret n e args).after m) := by
  have hmoves : Moves [] m (ofGuards []) ((lower n e).after m) := lower_carries hn e hm.orderly
  have hresult : (interpret n e args).result m =
      (call n p args).result ((lower n e).after m) := by
    simp only [interpret, Work.result_bind, hp]
  have hafter : (interpret n e args).after m = (call n p args).after ((lower n e).after m) := by
    simp only [interpret, Work.after_bind, hp]
  obtain ⟨_, func, rfl, _⟩ := eq_ofEntry_of_lower hp
  rw [hresult, hafter]
  exact returnsSoundly_call hn (hm.moves hmoves) e func args

theorem returnsSoundly_invoke (hn : n.Lawful) (hm : m.Regular G gs) {rs : Replacements}
    (hc : Callable m rs) {method : Method} {mode : CallMode} {p : CallPlan}
    (hp : (plan n rs method mode).result m = .ok p) (args : List Value) :
    p.ReturnsSoundly n args ((plan n rs method mode).after m)
      ((invoke n rs method mode args).result m) ((invoke n rs method mode args).after m) := by
  obtain ⟨hplanned, e, func, rfl⟩ := hc.plan_spec hn hm hp
  have hresult : (invoke n rs method mode args).result m =
      (call n (.ofEntry e func) args).result ((plan n rs method mode).after m) := by
    simp only [invoke_eq, Work.result_bind, hp]
  have hafter : (invoke n rs method mode args).after m =
      (call n (.ofEntry e func) args).after ((plan n rs method mode).after m) := by
    simp only [invoke_eq, Work.after_bind, hp]
  rw [hresult, hafter]
  exact returnsSoundly_call hn hplanned e func args

end Dispatch

/-- The reference of a cell that was freed since comes back from nowhere, unless its slot was freed
through all generations. -/
theorem Heap.not_standsFor_of_freed {h : Heap} {q : HeapRequest} {r : ObjRef}
    {between : List HeapRequest} (hq : (h.perform q).1 = .ok (.allocated r))
    (hfreed : 0 < frees r.index (h.perform q).2 between)
    (hfew : frees r.index (h.perform q).2 between < 2 ^ 32) (method : Method) (due : ParamKind)
    (address : UInt64) :
    ¬((h.perform q).2.run between).2.StandsFor method due address
      (.ok (some (.ref (some r)))) := by
  intro hs
  obtain ⟨c, hc⟩ := hs.live
  have hround : 2 ^ 32 ∣ frees r.index (h.perform q).2 between :=
    dvd_frees_of_issued (generationAt_of_allocated hq) (cell?_iff_cellAt.1 hc).1
  exact absurd (Nat.le_of_dvd hfreed hround) (Nat.not_le.2 hfew)

/-- A reference that comes back has a slot that 32 bits can tell, while there are no more slots. -/
theorem CallPlan.index_lt_of_value {h : Heap} {e : Entry} {func : CodeRef} {address : UInt64}
    {r : ObjRef} (hm : h.Mapped) (hdue : e.convention.result.isReference = true)
    (hfew : h.slots.length ≤ UInt32.size)
    (hr : (CallPlan.ofEntry e func).value h address = .ok (some (.ref (some r)))) :
    r.index < UInt32.size := by
  obtain ⟨c, hc⟩ := ((CallPlan.value_eq_iff hm hdue).1 hr).live
  exact Heap.index_lt_of_cell? hfew hc

/-- Returned references are sound. In every heap whose allocator gives out only what is free, where
a reference is due, an address results in null if it is 0, in the reference of the live cell whose
block it lies in if that cell is of the kind that is due, in a mismatch that tells the kind of the
cell if it is not, and is unknown if it lies in no live block; and in nothing else. A reference that
comes back is taken by every operation. If its cell was freed since it was allocated, its slot was
freed `2 ^ 32` times at least. Its slot is told in 32 bits, which is enough for `2 ^ 32` slots
(`CallPlan.index_lt_of_value`).

Calls return what the register stands for in the heap as the native function left it. That holds at
every regular machine: every host begins regular unless it lays a block at null, operations leave a
machine regular, and it is regular at each moment of a native function, also within its calls. -/
theorem returned_references_sound (d : Nat) :
    (∀ qs, Heap.Admits {} qs →
      let h := (Heap.run {} qs).2
      ∀ (e : Entry) (func : CodeRef) (address : UInt64), e.convention.result.isReference = true →
        (∀ x, (CallPlan.ofEntry e func).value h address = x ↔
          h.StandsFor e.method e.convention.result address x) ∧
        ∀ r, (CallPlan.ofEntry e func).value h address = .ok (some (.ref (some r))) →
          h.Takes r ∧ ∀ before q between, qs = before ++ q :: between →
            let h₀ := (Heap.run {} before).2
            let h₁ := (h₀.perform q).2
            (h₀.perform q).1 = .ok (.allocated r) → 0 < Heap.frees r.index h₁ between →
              2 ^ 32 ≤ Heap.frees r.index h₁ between) ∧
    ((∀ program, 0 < program.layout.first → (Machine.ofProgram program).Regular [] []) ∧
      ∀ G m program, Machine.Orderly G m → 0 < program.layout.first →
        (m.enter program).Regular G []) ∧
    ∀ (G : List UnitHandle) (gs : List Guard) (m : Machine), m.Regular G gs →
      (∀ ops : List Op, ((ops.mapM (Op.answer (.ofDepth d))).after m).Regular G gs) ∧
      (∀ (p : CallPlan) (args : List Value) s code m₁ m', p.Enters args m s code m₁ →
        Moment d code m₁ m' → ∃ gs', m'.Regular G (gs' ++ gs)) ∧
      (∀ (e : Entry) (func : CodeRef) (args : List Value),
        let p := CallPlan.ofEntry e func
        let call := Dispatch.call (.ofDepth d) p args
        p.ReturnsSoundly (.ofDepth d) args m (call.result m) (call.after m)) ∧
      (∀ (e : Entry) (p : CallPlan) (args : List Value),
        let lower := Dispatch.lower (.ofDepth d) e
        let interpret := Dispatch.interpret (.ofDepth d) e args
        lower.result m = .ok p → p.ReturnsSoundly (.ofDepth d) args (lower.after m)
          (interpret.result m) (interpret.after m)) ∧
      ∀ (rs : Replacements), Dispatch.Callable m rs →
        ∀ (method : Method) (mode : CallMode) (p : CallPlan) (args : List Value),
        let plan := Dispatch.plan (.ofDepth d) rs method mode
        let invoke := Dispatch.invoke (.ofDepth d) rs method mode args
        plan.result m = .ok p → p.ReturnsSoundly (.ofDepth d) args (plan.after m)
          (invoke.result m) (invoke.after m) := by
  have hn := Nested.lawful_ofDepth d
  refine ⟨?_, ⟨fun program h => .ofProgram h, fun G m program ho h => .enter ho h⟩,
    fun G gs m hm => ⟨?_, ?_, ?_, ?_, ?_⟩⟩
  · intro qs ha h e func address hdue
    have hm : h.Mapped := Heap.mapped_empty.run ha
    refine ⟨fun x => CallPlan.value_eq_iff hm hdue, fun r hr => ?_⟩
    have hstands := (CallPlan.value_eq_iff hm hdue).1 hr
    obtain ⟨c, hc⟩ := hstands.live
    refine ⟨Heap.takes_of_some hc, ?_⟩
    rintro before q between rfl h₀ h₁ hq hfreed
    by_contra hfew
    have hrun : h = (h₁.run between).2 := Heap.run_append {} before (q :: between)
    rw [hrun] at hstands
    exact Heap.not_standsFor_of_freed hq hfreed (Nat.lt_of_not_le hfew) _ _ _ hstands
  · exact fun ops => hm.answers hn ops
  · intro p args s code m₁ m' he hmoment
    obtain ⟨gs', hm'⟩ := (hm.enters he).moment hmoment
    exact ⟨gs' ++ s.guards, by rwa [List.append_assoc]⟩
  · exact fun e func args => Dispatch.returnsSoundly_call hn hm e func args
  · exact fun e p args hp => Dispatch.returnsSoundly_interpret hn hm hp args
  · exact fun rs hc method mode p args hp => Dispatch.returnsSoundly_invoke hn hm hc hp args

/-- Frees an array and collects, and then returns an address inside the block of what its symbol
names, wherever that lies by now. -/
def pointInto (func : CodeRef) (_ : List NativeArg) : Behaviour UInt64 :=
  .ask (.step (.heap (.free "a"))) fun _ => .ask (.step (.heap .relocate)) fun _ =>
    .ask (.addressOf func.symbol) fun reply => .done <|
      match reply with
      | .word (some address) => address + 7
      | _ => 0

def pointing : Program where
  settings := {}
  layout := ⟨64, 0⟩
  source := { load := fun _ => .error .notBuiltIn, contains := fun _ => false }
  native := fun func => some (pointInto func)
  provider := fun _ => none
  steps := [.heap (.newArray .int 2 "a"), .heap (.newArray .int 2 "b"),
    .heap (.newObject "Box" 1 "o")]

def pointEntry (symbol : String) : Entry where
  unit := "Point"
  method := ⟨"Point", symbol, "()[I"⟩
  nativeName := symbol
  target := .direct ⟨none, symbol⟩
  convention := ⟨false, [], .array .int⟩

/-- The last byte of the second array is in it, and the instance is no array. What is freed is
nowhere. -/
theorem returned_references_sound_pointing :
    let m := (pointing.steps.mapM (Op.answer (.ofDepth 1))).after (.ofProgram pointing)
    let result (symbol : String) :=
      (Dispatch.interpret (.ofDepth 1) (pointEntry symbol) []).result m
    result "b" = .ok (some (.ref (some ⟨1, 0⟩))) ∧
    result "o" = .error (.returnMismatch (pointEntry "o").method .int (.ofClass "Box")) ∧
    result "a" = .ok (some .null) := by
  intro m result
  obtain ⟨-, ⟨hprogram, -⟩, hregular⟩ := returned_references_sound 1
  have hstart := hprogram pointing (by decide)
  have hm : m.Regular [] [] := (hregular [] [] _ hstart).1 pointing.steps
  obtain ⟨-, -, -, hinterpret, -⟩ := hregular [] [] m hm
  -- How the native function of an entry begins, and the heap that it leaves.
  let begun (symbol : String) : Machine := { m with
    trace := m.trace ++ [.called ⟨none, symbol⟩ []] }
  let left (symbol : String) : Heap :=
    (((Nested.ofDepth 1).runCode (pointInto ⟨none, symbol⟩ [])).after (begun symbol)).host.heap
  let register (symbol : String) : UInt64 :=
    ((Nested.ofDepth 1).runCode (pointInto ⟨none, symbol⟩ [])).result (begun symbol)
  have hexact : ∀ symbol x, symbol ∈ ["a", "b", "o"] → (result symbol = x ↔
      (left symbol).StandsFor (pointEntry symbol).method (.array .int) (register symbol) x) := by
    intro symbol x hsymbol
    have henters : (CallPlan.ofEntry (pointEntry symbol) ⟨none, symbol⟩).Enters [] m
        { heap := m.host.heap } (pointInto ⟨none, symbol⟩ []) (begun symbol) :=
      ⟨rfl, rfl, rfl, rfl, rfl⟩
    have hroom : ∀ s ∈ ["a", "b", "o"], (((Nested.ofDepth 1).runCode
        (pointInto ⟨none, s⟩ [])).after (begun s)).host.addressLimit ≤ UInt64.size := by
      decide +kernel
    exact (hinterpret (pointEntry symbol) _ [] rfl _ _ _ henters rfl (hroom symbol hsymbol)).1 x
  have hlies : ∀ symbol r base words kind, ((left symbol).cell? r).map
      (fun c => (c.base, c.block.words, c.kind)) = some (base, words, kind) →
      base ≤ (register symbol).toNat → (register symbol).toNat < base + 8 * words →
      ∃ c, (left symbol).Lies (register symbol).toNat r c ∧ c.kind = kind := by
    intro symbol r base words kind hcell hle hlt
    obtain ⟨c, hc, heq⟩ := Option.map_eq_some_iff.1 hcell
    cases heq
    exact ⟨c, ⟨hc, hle, hlt⟩, rfl⟩
  refine ⟨(hexact "b" _ (by decide)).2 ?_, (hexact "o" _ (by decide)).2 ?_,
    (hexact "a" _ (by decide)).2 (.null (by decide +kernel))⟩
  · obtain ⟨c, hl, hkind⟩ := hlies "b" ⟨1, 0⟩ 88 1 (.array .int)
      (by decide +kernel) (by decide +kernel) (by decide +kernel)
    exact .cell hl fun k hk => by cases hk; exact hkind
  · obtain ⟨c, hl, hkind⟩ := hlies "o" ⟨2, 0⟩ 96 1 (.ofClass "Box")
      (by decide +kernel) (by decide +kernel) (by decide +kernel)
    rw [← hkind]
    exact .mismatch hl rfl (by rw [hkind]; decide)

end AccelHost
