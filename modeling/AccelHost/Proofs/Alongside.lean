import AccelHost.Proofs.SettledCalls

/-!
Two hosts that are the same but for places, one of which may have collected where the other did not.
What they hand over leads to the same blocks, at the same offsets there is the same to read, and
what comes back from native code stands for the same references.
-/
namespace AccelHost

/-- Arguments that are the same but for places: a pointer is that of a guard for the same cell. -/
inductive NativeArg.Alongside (gs gs' : List Guard) : NativeArg → NativeArg → Prop where
  | prim (k : ElemKind) (v : k.Val) : Alongside gs gs' (.prim k v) (.prim k v)
  | null : Alongside gs gs' (.pointer 0) (.pointer 0)
  | cell {g g' : Guard} : g ∈ gs → g' ∈ gs' → g'.unplaced = g.unplaced →
      Alongside gs gs' (.pointer (UInt64.ofNat g.base)) (.pointer (UInt64.ofNat g'.base))

/-- Two stages of handing over arguments that are the same but for places. -/
structure Marshalled.Alongside (s s' : Marshalled) : Prop where
  args : List.Forall₂ (NativeArg.Alongside s.guards s'.guards) s.args s'.args
  guards : s'.guards.map Guard.unplaced = s.guards.map Guard.unplaced
  heap : s.heap.Elsewhere s'.heap

theorem NativeArg.Alongside.mono {gs gs' ks ks' : List Guard} {a a' : NativeArg}
    (h : a.Alongside gs gs' a') (hg : ∀ g ∈ gs, g ∈ ks) (hg' : ∀ g ∈ gs', g ∈ ks') :
    a.Alongside ks ks' a' := by
  cases h with
  | prim => exact .prim _ _
  | null => exact .null
  | cell h h' he => exact .cell (hg _ h) (hg' _ h') he

/-! ### Arguments -/

namespace Marshalled.Alongside

variable {s s' : Marshalled}

theorem push {as as' : List NativeArg} (h : s.Alongside s')
    (has : List.Forall₂ (NativeArg.Alongside s.guards s'.guards) as as') :
    (s.push as).Alongside (s'.push as') :=
  ⟨List.rel_append h.args has, h.guards, h.heap⟩

theorem pin {r : ObjRef} {as : Guard → Option (List NativeArg)} {otherwise : DispatchError}
    (h : s.Alongside s')
    (has : ∀ g g' gs gs', g ∈ gs → g' ∈ gs' → g'.unplaced = g.unplaced →
      Option.Rel (List.Forall₂ (NativeArg.Alongside gs gs')) (as g) (as g')) :
    (s'.pin r as otherwise).1 = (s.pin r as otherwise).1 ∧
      (s.pin r as otherwise).2.Alongside (s'.pin r as otherwise).2 := by
  have hpin : (s'.heap.pin r).map (fun pinned => (pinned.1.unplaced, pinned.2.unplaced)) =
      (s.heap.pin r).map fun pinned => (pinned.1.unplaced, pinned.2.unplaced) := by
    have hheap : s'.heap.unplaced = s.heap.unplaced := h.heap
    rw [← Heap.pin_unplaced, hheap, Heap.pin_unplaced]
  unfold Marshalled.pin
  cases hp : s.heap.pin r with
  | error e =>
    rw [hp] at hpin
    obtain ⟨e', he'⟩ : ∃ e', s'.heap.pin r = .error e' := by
      cases hp' : s'.heap.pin r with
      | error e' => exact ⟨e', rfl⟩
      | ok pinned =>
        rw [hp'] at hpin
        cases hpin
    rw [he'] at hpin
    cases hpin
    simp only [he']
    exact ⟨trivial, h⟩
  | ok pinned =>
    obtain ⟨g, heap⟩ := pinned
    rw [hp] at hpin
    obtain ⟨⟨g', heap'⟩, hp', hsame⟩ := exists_of_map_eq_ok hpin
    obtain ⟨hg, hheap⟩ := Prod.mk.inj hsame
    have hrest : Marshalled.Alongside { s with heap, guards := s.guards ++ [g] }
        { s' with heap := heap', guards := s'.guards ++ [g'] } := by
      refine ⟨h.args.imp fun _ _ ha => ha.mono (fun _ => List.mem_append_left _)
        fun _ => List.mem_append_left _, ?_, hheap⟩
      simp only [List.map_append, h.guards, List.map_cons, List.map_nil]
      rw [show g'.unplaced = g.unplaced from hg]
    have hrel := has g g' (s.guards ++ [g]) (s'.guards ++ [g']) (by simp) (by simp) hg
    simp only [hp']
    generalize as g = x at hrel ⊢
    generalize as g' = y at hrel ⊢
    cases hrel with
    | none => exact ⟨rfl, hrest⟩
    | some has => exact ⟨rfl, hrest.push has⟩

theorem add {m : Method} {index : Nat} {kind : ParamKind} {v : Value} (h : s.Alongside s') :
    (s'.add m index kind v).1 = (s.add m index kind v).1 ∧
      (s.add m index kind v).2.Alongside (s'.add m index kind v).2 := by
  have hkind : ∀ r, s'.heap.kind r = s.heap.kind r := fun r =>
    Heap.Elsewhere.same (f := fun heap => heap.kind r) (fun _ => Heap.kind_unplaced) h.heap
  let pointer : Guard → Option (List NativeArg) := fun g => some [.pointer (UInt64.ofNat g.base)]
  have hpointer : ∀ r, (s'.pin r pointer (.argumentMismatch m index kind v.kind)).1 =
        (s.pin r pointer (.argumentMismatch m index kind v.kind)).1 ∧
      (s.pin r pointer (.argumentMismatch m index kind v.kind)).2.Alongside
        (s'.pin r pointer (.argumentMismatch m index kind v.kind)).2 := fun r =>
    h.pin fun g g' gs gs' hg hg' hs => .some (.cons (.cell hg hg' hs) .nil)
  unfold Marshalled.add
  split
  · split
    · exact ⟨rfl, h.push (.cons (.prim _ _) .nil)⟩
    · exact ⟨rfl, h⟩
  · exact ⟨rfl, h⟩
  · exact ⟨rfl, h.push (.cons .null .nil)⟩
  · exact hpointer _
  · exact hpointer _
  · exact ⟨rfl, h⟩
  · rw [hkind]
    split
    · exact ⟨rfl, h⟩
    · split
      · refine h.pin fun g g' gs gs' hg hg' hs => ?_
        have hlen : g'.unplaced.length = g.unplaced.length := by rw [hs]
        unfold ofArray
        rw [show g'.length = g.length from hlen]
        split
        · exact .some (.cons (.cell hg hg' hs) (.cons (.prim _ _) .nil))
        · exact .none
      · exact ⟨rfl, h⟩
  · exact ⟨rfl, h⟩

theorem addAll {m : Method} {index : Nat} {kinds : List ParamKind} {values : List Value}
    (h : s.Alongside s') :
    (addAll m index kinds values s').1 = (addAll m index kinds values s).1 ∧
      (addAll m index kinds values s).2.Alongside (addAll m index kinds values s').2 := by
  induction kinds generalizing index values s s' with
  | nil => exact ⟨rfl, h⟩
  | cons k ks ih =>
    cases values with
    | nil => exact ⟨rfl, h⟩
    | cons v vs =>
      have hstep : (s'.add m index k v).1 = (s.add m index k v).1 ∧
          (s.add m index k v).2.Alongside (s'.add m index k v).2 := h.add
      unfold Marshalled.addAll
      generalize s.add m index k v = x at hstep ⊢
      generalize s'.add m index k v = y at hstep ⊢
      obtain ⟨error, s₁⟩ := x
      obtain ⟨error', s₁'⟩ := y
      obtain ⟨herror, hadd⟩ := hstep
      cases herror
      cases error with
      | none => exact ih hadd
      | some e => exact ⟨rfl, hadd⟩

end Marshalled.Alongside

theorem CallPlan.marshal_alongside {h h' : Heap} (p : CallPlan) (args : List Value)
    (he : h.Elsewhere h') : (p.marshal h' args).1 = (p.marshal h args).1 ∧
      (p.marshal h args).2.Alongside (p.marshal h' args).2 :=
  Marshalled.Alongside.addAll ⟨.nil, rfl, he⟩

/-! ### Memory -/

theorem exists_of_forall₂ {α β : Type} {R : α → β → Prop} {as : List α} {bs : List β} {i : Nat}
    {a : α} (h : List.Forall₂ R as bs) (ha : as[i]? = some a) : ∃ b, bs[i]? = some b ∧ R a b := by
  induction h generalizing i with
  | nil => cases ha
  | cons hab _ ih =>
    cases i with
    | zero =>
      cases ha
      exact ⟨_, rfl, hab⟩
    | succ i => exact ih ha

theorem toNat_pointerAt {args : List NativeArg} {arg offset base : Nat} {a : UInt64}
    (ha : args[arg]? = some (.pointer a)) (hbase : a = UInt64.ofNat base)
    (hlt : base + offset < UInt64.size) : (pointerAt args arg offset).toNat = base + offset := by
  simp only [pointerAt, ha, Option.bind_some, NativeArg.address?, Option.getD_some, hbase]
  rw [← UInt64.ofNat_add, UInt64.toNat_ofNat_of_lt' hlt]

namespace Heap

theorem Mapped.eq_of_ofNat {h : Heap} {r r' : ObjRef} {c c' : Cell} (hm : h.Mapped)
    (hc : h.cell? r = some c) (hc' : h.cell? r' = some c')
    (hb : UInt64.ofNat c.base = UInt64.ofNat c'.base) : r = r' ∧ c = c' := by
  obtain ⟨hg, hcell⟩ := cell?_iff_cellAt.1 hc
  obtain ⟨hg', hcell'⟩ := cell?_iff_cellAt.1 hc'
  obtain ⟨_, hsize, hend⟩ := hm.placed _ c hcell
  obtain ⟨_, hsize', hend'⟩ := hm.placed _ c' hcell'
  have hbase : c.base = c'.base := by
    have hnat := congrArg UInt64.toNat hb
    rwa [UInt64.toNat_ofNat_of_lt' (by omega), UInt64.toNat_ofNat_of_lt' (by omega)] at hnat
  have hi : r.index = r'.index :=
    hm.eq_of_mem (a := c.base) hcell hcell' (Nat.le_refl _) (by omega) (by omega) (by omega)
  have hr : r = r' := eq_of_cell? hc hc' hi
  subst hr
  exact ⟨rfl, Option.some.inj (hc.symm.trans hc')⟩

end Heap

namespace Host

variable {b : Bodies} {gs gs' : List Guard} {h h' : Host} {args args' : List NativeArg}

/-- A guard in hand finds its cell where it was, at an address that is not null. -/
theorem Settled.held {collects : Bool} {g : Guard} (hs : h.Settled b collects gs) (hr : h.Roomy)
    (hg : g ∈ gs) : ∃ c, h.heap.cell? g.ref = some c ∧ c.base = g.base ∧
      UInt64.ofNat g.base ≠ 0 := by
  obtain ⟨c, hc, hb⟩ := (hs.tallied hr.unwrapped).heap.held g (List.mem_append_left _ hg)
  obtain ⟨hpos, hsize, hend⟩ :=
    (hs.laid.mapped hr.room).placed _ c (Heap.cell?_iff_cellAt.1 hc).2
  refine ⟨c, hc, hb, fun hz => ?_⟩
  have hnat := congrArg UInt64.toNat hz
  rw [← hb, UInt64.toNat_ofNat_of_lt' (by omega)] at hnat
  exact absurd hnat (by simpa using Nat.ne_of_gt hpos)

theorem unplaced_args (hs : h.Settled b false gs) (hs' : h'.Settled b true gs') (hr : h.Roomy)
    (hr' : h'.Roomy) (hargs : List.Forall₂ (NativeArg.Alongside gs gs') args args') :
    args'.map NativeArg.unplaced = args.map NativeArg.unplaced := by
  induction hargs with
  | nil => rfl
  | cons ha _ ih =>
    rw [List.map_cons, List.map_cons, ih]
    congr 1
    cases ha with
    | prim => rfl
    | null => rfl
    | cell hg hg' _ =>
      obtain ⟨_, _, _, hne⟩ := hs.held hr hg
      obtain ⟨_, _, _, hne'⟩ := hs'.held hr' hg'
      simp [NativeArg.unplaced, hne, hne']

/-- An offset in a block that an argument leads to: the cell, and the address in both hosts. -/
theorem reach {arg offset width : Nat} (he : h'.unplaced = h.unplaced)
    (hs : h.Settled b false gs) (hs' : h'.Settled b true gs') (hr : h.Roomy) (hr' : h'.Roomy)
    (hargs : List.Forall₂ (NativeArg.Alongside gs gs') args args')
    (hl : h.heap.Leads args arg offset width) :
    ∃ r c base, h.heap.cell? r = some c ∧ h'.heap.cell? r = some { c with base } ∧
      (pointerAt args arg offset).toNat = c.base + offset ∧
      (pointerAt args' arg offset).toNat = base + offset ∧
      offset < c.block.size ∧ offset + width ≤ c.block.size := by
  obtain ⟨a, ha, r, c, hc, hbase, hlt, hle⟩ := hl
  obtain ⟨a', ha', halong⟩ := exists_of_forall₂ hargs ha
  have hm := hs.laid.mapped hr.room
  have hm' := hs'.laid.mapped hr'.room
  obtain ⟨hpos, _, hend⟩ := hm.placed _ c (Heap.cell?_iff_cellAt.1 hc).2
  cases halong with
  | null =>
    have hnat := congrArg UInt64.toNat hbase
    rw [UInt64.toNat_ofNat_of_lt' (by omega)] at hnat
    exact absurd hnat (by simpa using Nat.ne_of_gt hpos)
  | @cell g g' hg hg' hsame =>
    obtain ⟨d, hd, hdg, _⟩ := hs.held hr hg
    obtain ⟨d', hd', hdg', _⟩ := hs'.held hr' hg'
    obtain ⟨rfl, rfl⟩ := hm.eq_of_ofNat hc hd (by rw [hbase, hdg])
    have hheap : h.heap.Elsewhere h'.heap := congrArg Host.heap he
    obtain ⟨base, hc'⟩ := hheap.cell? hc
    have href : g'.unplaced.ref = g.unplaced.ref := by rw [hsame]
    rw [show g'.ref = g.ref from href, hc'] at hd'
    cases hd'
    obtain ⟨_, _, hend'⟩ := hm'.placed _ _ (Heap.cell?_iff_cellAt.1 hc').2
    have hbase' : base = g'.base := hdg'
    have hfit : base + c.block.size ≤ UInt64.size := hend'
    refine ⟨g.ref, c, base, hc, hc', ?_, ?_, hlt, hle⟩
    · exact toNat_pointerAt ha (by rw [hdg]) (by omega)
    · exact toNat_pointerAt ha' (by rw [hbase']) (by omega)

theorem load_alongside {arg offset width : Nat} (he : h'.unplaced = h.unplaced)
    (hs : h.Settled b false gs) (hs' : h'.Settled b true gs') (hr : h.Roomy) (hr' : h'.Roomy)
    (hargs : List.Forall₂ (NativeArg.Alongside gs gs') args args')
    (hl : h.heap.Leads args arg offset width) :
    ∃ w, h.heap.load? (pointerAt args arg offset).toNat width = some w ∧
      h'.heap.load? (pointerAt args' arg offset).toNat width = some w := by
  obtain ⟨r, c, base, hc, hc', ha, ha', hlt, hle⟩ := reach he hs hs' hr hr' hargs hl
  refine ⟨c.block.load offset width, ?_, ?_⟩
  · rw [Heap.load?, ha, (hs.laid.mapped hr.room).atAddress?_eq hc hlt hle, Option.map_some]
  · have hfound := (hs'.laid.mapped hr'.room).atAddress?_eq hc' hlt hle
    rw [Heap.load?, ha', hfound, Option.map_some]

theorem store_alongside {arg offset width : Nat} (value : UInt64) (he : h'.unplaced = h.unplaced)
    (hs : h.Settled b false gs) (hs' : h'.Settled b true gs') (hr : h.Roomy) (hr' : h'.Roomy)
    (hargs : List.Forall₂ (NativeArg.Alongside gs gs') args args')
    (hl : h.heap.Leads args arg offset width) :
    ∃ heap heap', h.heap.store? (pointerAt args arg offset).toNat width value = some heap ∧
      h'.heap.store? (pointerAt args' arg offset).toNat width value = some heap' ∧
      heap.Elsewhere heap' := by
  obtain ⟨r, c, base, hc, hc', ha, ha', hlt, hle⟩ := reach he hs hs' hr hr' hargs hl
  refine ⟨h.heap.setBlock r c (c.block.store offset width value),
    h'.heap.setBlock r { c with base } (c.block.store offset width value), ?_, ?_, ?_⟩
  · rw [Heap.store?, ha, (hs.laid.mapped hr.room).atAddress?_eq hc hlt hle, Option.map_some]
  · have hfound := (hs'.laid.mapped hr'.room).atAddress?_eq hc' hlt hle
    rw [Heap.store?, ha', hfound, Option.map_some]
  · have hheap : h'.heap.unplaced = h.heap.unplaced := congrArg Host.heap he
    unfold Heap.Elsewhere
    rw [Heap.unplaced_setBlock, Heap.unplaced_setBlock, hheap]
    rfl

theorem value_alongside {p : CallPlan} {r : NativeResult} (he : h'.unplaced = h.unplaced)
    (hs : h.Settled b false gs) (hs' : h'.Settled b true gs') (hr : h.Roomy) (hr' : h'.Roomy)
    (hargs : List.Forall₂ (NativeArg.Alongside gs gs') args args')
    (hfits : r.Fits args p.result h.heap) :
    p.value h'.heap (r.register args') = p.value h.heap (r.register args) := by
  have hheap : h.heap.Elsewhere h'.heap := congrArg Host.heap he
  cases r with
  | word w =>
    unfold CallPlan.value
    cases ht : p.result with
    | void | prim => rfl
    | pointer => exact absurd ht hfits
  | null =>
    unfold CallPlan.value
    cases p.result <;> rfl
  | pointer arg offset =>
    obtain ⟨hprim, hl⟩ := hfits
    obtain ⟨r, c, base, hc, hc', ha, ha', hlt, hle⟩ := reach he hs hs' hr hr' hargs hl
    obtain ⟨hne, hfound⟩ := (hs.laid.mapped hr.room).resolve_within hc ha hlt
    obtain ⟨hne', hfound'⟩ := (hs'.laid.mapped hr'.room).resolve_within hc' ha' hlt
    have hkind : h'.heap.kind r = h.heap.kind r :=
      Heap.Elsewhere.same (f := fun heap => heap.kind r) (fun _ => Heap.kind_unplaced) hheap
    unfold CallPlan.value
    cases ht : p.result with
    | void => rfl
    | prim k => exact absurd ht (hprim k)
    | pointer =>
      simp only [NativeResult.register, CallPlan.refResult, hne, hne', ↓reduceIte, hfound, hfound',
        hkind]

end Host

end AccelHost
