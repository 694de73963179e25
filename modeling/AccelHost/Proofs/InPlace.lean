import AccelHost.Proofs.Memory
import AccelHost.Proofs.RoundTrip

/-!
Native stores in place. A native function gets the addresses of the blocks of its arguments, and no
copies. So what it stores there is what is stored in the cells, under every name that they have,
and what it loads is what was stored last, by itself or by the managed side. What is stored after a
call is told here by the requests of its native function, without addresses, pins or places.
-/
namespace AccelHost

open Holding

/-! ### Requests -/

/-- The requests that code makes one after another, each with the machine at which it is made. -/
def Nested.requests (n : Nested) {α : Type} : Behaviour α → Machine → List (Action × Machine)
  | .done _, _ => []
  | .ask q next, m =>
    (q, m) :: n.requests (next ((n.answer q).result m)) ((n.answer q).after m)

/-- Where the bytes at an address lie, if they were lent: the cell, and the first of its bytes. -/
abbrev Loan := UInt64 → Nat → Option (ObjRef × Nat)

def Cell.offset? (c : Cell) (address width : Nat) : Option Nat :=
  if c.contains address ∧ address + width ≤ c.base + c.block.size then some (address - c.base)
  else none

/-- What is lent with some values: the blocks of the cells that they refer to. -/
def Heap.loan (h : Heap) (values : List Value) : Loan := fun address width =>
  (values.filterMap Value.ref?).findSome? fun r =>
    (h.cell? r).bind fun c => (c.offset? address.toNat width).map fun offset => (r, offset)

/-- Whether a request goes to memory only where it was lent. -/
def Action.Within (lent : Loan) : Action → Prop
  | .load address width | .store address width _ => (lent address width).isSome
  | _ => True

instance (lent : Loan) : (q : Action) → Decidable (q.Within lent)
  | .load .. | .store .. => inferInstanceAs (Decidable (_ = true))
  | .call _ | .step _ | .run _ | .note _ | .locate _ | .addressOf _ | .markOf _ =>
    isTrue trivial

def StepAnswer.reply : StepAnswer → Reply
  | .mk reply _ => reply

/-- What is stored after a request that is made at a machine. Bytes are stored where they were lent,
operations on the heap do what they do, and what other operations leave, which may call foreign
code, is seen in the heap after them. Nothing else makes a difference. -/
def Action.leaves (n : Nested) (lent : Loan) (μ : Memory) : Action × Machine → Memory
  | (.store address width value, _) =>
    (lent address width).elim μ fun (r, offset) => μ.write r (·.store offset width value)
  | (.step (.heap op), m) =>
    op.leaves m.host.objects μ ((n.step (.heap op)).result m).reply
  | (.step (.registry _), _) => μ
  | (.step op, m) => ((n.step op).after m).host.heap.memory
  | _ => μ

def Memory.replay (n : Nested) (lent : Loan) (μ : Memory) (qs : List (Action × Machine)) :
    Memory := qs.foldl (Action.leaves n lent) μ

def Memory.byte? (μ : Memory) (r : ObjRef) (i : Nat) : Option UInt8 :=
  (μ r).map fun c => c.block.byte i

/-- A request leaves alone a byte of a cell: nothing is stored there, and an operation, with all
that it calls, leaves it as it was. -/
def Action.Spares (n : Nested) (lent : Loan) (r : ObjRef) (i : Nat) : Action × Machine → Prop
  | (.store address width _, _) =>
    ∀ offset, lent address width = some (r, offset) → ¬(offset ≤ i ∧ i < offset + width)
  | (.step op, m) =>
    ((n.step op).after m).host.heap.memory.byte? r i = m.host.heap.memory.byte? r i
  | _ => True

variable {n : Nested} {d : Nat} {G : List UnitHandle} {gs : List Guard} {m m' m₁ : Machine}
  {lent : Loan} {μ : Memory}

theorem exists_of_loan {h : Heap} {values : List Value} {address : UInt64} {width offset : Nat}
    {r : ObjRef} (hl : h.loan values address width = some (r, offset)) :
    .ref (some r) ∈ values ∧ ∃ c, h.cell? r = some c ∧ address.toNat = c.base + offset ∧
      offset < c.block.size ∧ offset + width ≤ c.block.size := by
  obtain ⟨r', hr', hfound⟩ := List.exists_of_findSome?_eq_some hl
  obtain ⟨c, hc, hoffset⟩ := Option.bind_eq_some_iff.1 hfound
  obtain ⟨o, ho, hpair⟩ := Option.map_eq_some_iff.1 hoffset
  cases hpair
  obtain ⟨v, hv, href⟩ := List.mem_filterMap.1 hr'
  have hvalue : v = .ref (some r) := by
    cases v with
    | prim => cases href
    | ref => exact congrArg _ href
  unfold Cell.offset? at ho
  split at ho
  · rename_i hin
    cases ho
    simp only [Cell.contains, Bool.and_eq_true, decide_eq_true_eq] at hin
    exact ⟨hvalue ▸ hv, c, hc, by omega, by omega, by omega⟩
  · cases ho

/-! ### What one request leaves -/

namespace Action

variable {address value : UInt64} {width offset : Nat} {r : ObjRef}

theorem leaves_store_of_lent (hl : lent address width = some (r, offset)) :
    leaves n lent μ (.store address width value, m) =
      μ.write r (·.store offset width value) := by
  simp only [leaves, hl, Option.elim]

theorem leaves_store_of_not_lent (hl : ∀ offset, lent address width ≠ some (r, offset)) :
    leaves n lent μ (.store address width value, m) r = μ r := by
  cases hfound : lent address width with
  | none => simp only [leaves, hfound, Option.elim]
  | some found =>
    have hr : r ≠ found.1 := fun hr => hl found.2 (by rw [hfound, hr])
    rw [leaves_store_of_lent hfound, Memory.write, Memory.put, if_neg hr]

end Action

def Heap.Serves (h : Heap) (lent : Loan) : Prop :=
  ∀ address width r offset, lent address width = some (r, offset) →
    ∃ c, h.cell? r = some c ∧ h.atAddress? address.toNat width = some (r, c, offset)

namespace Heap.Serves

variable {h : Heap} {address : UInt64} {width offset : Nat} {r : ObjRef}

theorem load? (hs : h.Serves lent) (hl : lent address width = some (r, offset)) :
    ∃ c, h.memory r = some c ∧ h.load? address.toNat width = some (c.block.load offset width) := by
  obtain ⟨c, hc, hat⟩ := hs address width r offset hl
  exact ⟨c.stored, memory_of_some hc, by rw [Heap.load?, hat]; rfl⟩

theorem store? (hs : h.Serves lent) (value : UInt64)
    (hl : lent address width = some (r, offset)) :
    ∃ h', h.store? address.toNat width value = some h' ∧
      h'.memory = h.memory.write r (·.store offset width value) := by
  obtain ⟨c, hc, hat⟩ := hs address width r offset hl
  refine ⟨_, by rw [Heap.store?, hat]; rfl, ?_⟩
  exact memory_setBlock hc (·.store offset width value)

end Heap.Serves

namespace Nested

/-- An operation on the heap, at any depth: if it is refused, nothing happens. -/
theorem memory_step_heap (d : Nat) (op : HeapOp) (hs : m.host.heap.Sound) :
    (((ofDepth d).step (.heap op)).after m).host.heap.memory =
      op.leaves m.host.objects m.host.heap.memory
        (((ofDepth d).step (.heap op)).result m).reply := by
  cases d with
  | zero => rfl
  | succ d => exact op.memory_perform hs

theorem heap_step_registry (d : Nat) (op : RegistryOp) :
    (((ofDepth d).step (.registry op)).after m).host.heap = m.host.heap := by
  cases d with
  | zero => rfl
  | succ d => exact op.perform_sparesHeap { m with journal := [] }

theorem answer_store {address value : UInt64} {width : Nat} (hs : m.host.heap.Serves lent)
    (hw : (Action.store address width value).Within lent) :
    (n.answer (.store address width value)).result m = .word (some value) ∧
      ((n.answer (.store address width value)).after m).host.heap.memory =
        Action.leaves n lent m.host.heap.memory (.store address width value, m) := by
  obtain ⟨⟨r, offset⟩, hl⟩ := Option.isSome_iff_exists.1 hw
  obtain ⟨h', hstore, hmemory⟩ := hs.store? value hl
  rw [Action.leaves_store_of_lent hl, ← hmemory]
  simp only [answer, Work.result_bind, Work.after_bind, Work.result_host, Work.after_host, hstore]
  exact ⟨rfl, rfl⟩

theorem memory_answer {q : Action} (ho : m.Orderly G) (hsound : m.host.heap.Sound)
    (hs : m.host.heap.Serves lent) (hw : q.Within lent) :
    (((ofDepth d).answer q).after m).host.heap.memory =
      Action.leaves (ofDepth d) lent m.host.heap.memory (q, m) := by
  cases q with
  | call c => exact congrArg Heap.memory (Work.heap_callback c)
  | step op =>
    cases op with
    | heap op => exact memory_step_heap d op hsound
    | registry op => exact congrArg Heap.memory (heap_step_registry d op)
    | dispatch | units | env => rfl
  | run p => exact congrArg Heap.memory (heap_run d p ho)
  | note | load | locate | addressOf | markOf => rfl
  | store address width value => exact (answer_store hs hw).2

end Nested

/-! ### What a run leaves -/

/-- From what is stored at first to what is stored at last, by way of requests that go to memory
only where it was lent, and find it there. -/
inductive Memory.Tracks (n : Nested) (lent : Loan) :
    Memory → List (Action × Machine) → Memory → Prop where
  | nil {μ : Memory} : Tracks n lent μ [] μ
  | cons {q : Action} {m : Machine} {qs : List (Action × Machine)} {μ' : Memory} :
      q.Within lent → m.host.heap.Serves lent →
      ((n.answer q).after m).host.heap.memory =
        Action.leaves n lent m.host.heap.memory (q, m) →
      Tracks n lent ((n.answer q).after m).host.heap.memory qs μ' →
      Tracks n lent m.host.heap.memory ((q, m) :: qs) μ'

namespace Memory.Tracks

variable {μ' : Memory} {qs before after : List (Action × Machine)} {q : Action} {r : ObjRef}
  {i : Nat}

theorem eq_replay (h : Tracks n lent μ qs μ') : μ' = μ.replay n lent qs := by
  induction h with
  | nil => rfl
  | cons _ _ hleaves _ ih => rw [ih, hleaves, replay, replay, List.foldl_cons]

/-- The requests after some others begin with what those left. -/
theorem of_append (h : Tracks n lent μ (before ++ after) μ') :
    Tracks n lent (μ.replay n lent before) after μ' := by
  induction before generalizing μ with
  | nil => exact h
  | cons x before ih =>
    cases h with
    | cons _ _ hleaves hrest =>
      rw [hleaves] at hrest
      exact ih hrest

theorem at_request (h : Tracks n lent μ (before ++ (q, m) :: after) μ') :
    m.host.heap.memory = μ.replay n lent before ∧ q.Within lent ∧ m.host.heap.Serves lent := by
  have hrest := h.of_append
  generalize μ.replay n lent before = ν at hrest ⊢
  cases hrest with
  | cons hw hs => exact ⟨rfl, hw, hs⟩

theorem byte?_leaves (hspares : Action.Spares n lent r i (q, m))
    (hleaves : ((n.answer q).after m).host.heap.memory =
      Action.leaves n lent m.host.heap.memory (q, m)) :
    ((n.answer q).after m).host.heap.memory.byte? r i = m.host.heap.memory.byte? r i := by
  cases q with
  | step op => exact hspares
  | store address width value =>
    rw [hleaves]
    by_cases hl : ∃ offset, lent address width = some (r, offset)
    · obtain ⟨offset, hl⟩ := hl
      have hout := hspares offset hl
      rw [Action.leaves_store_of_lent hl]
      simp only [byte?, write, put, ↓reduceIte]
      cases m.host.heap.memory r with
      | none => rfl
      | some c => simp only [Option.map_some, Block.store, if_neg hout]
    · have hsame : Action.leaves n lent m.host.heap.memory (.store address width value, m) r =
          m.host.heap.memory r :=
        Action.leaves_store_of_not_lent fun offset h => hl ⟨offset, h⟩
      rw [byte?, hsame, byte?]
  | _ => rw [hleaves]; rfl

theorem byte?_replay (h : Tracks n lent μ (before ++ after) μ')
    (hspares : ∀ x ∈ before, Action.Spares n lent r i x) :
    (μ.replay n lent before).byte? r i = μ.byte? r i := by
  induction before generalizing μ with
  | nil => rfl
  | cons x before ih =>
    cases h with
    | cons _ _ hleaves hrest =>
      have hfirst := byte?_leaves (hspares _ List.mem_cons_self) hleaves
      rw [hleaves] at hrest hfirst
      exact (ih hrest fun y hy => hspares y (List.mem_cons_of_mem _ hy)).trans hfirst

/-- A cell of which nothing was lent is as it was, unless an operation changed it. -/
theorem eq_of_not_lent (h : Tracks n lent μ qs μ')
    (hlent : ∀ address width offset, lent address width ≠ some (r, offset))
    (hops : ∀ op m, (.step op, m) ∈ qs →
      ((n.step op).after m).host.heap.memory r = m.host.heap.memory r) : μ' r = μ r := by
  induction h with
  | nil => rfl
  | @cons q m qs μ' _ _ hleaves _ ih =>
    refine (ih fun op m' hm => hops op m' (List.mem_cons_of_mem _ hm)).trans ?_
    cases q with
    | step op => exact hops op m List.mem_cons_self
    | store address width value =>
      rw [hleaves]
      exact Action.leaves_store_of_not_lent (hlent address width)
    | _ => rw [hleaves]; rfl

theorem byte?_of_store {address value : UInt64} {width offset j : Nat}
    {between : List (Action × Machine)}
    (h : Tracks n lent μ (before ++ (.store address width value, m) :: (between ++ after)) μ')
    (hl : lent address width = some (r, offset)) (hj : j < width)
    (hspares : ∀ x ∈ between, Action.Spares n lent r (offset + j) x) :
    (μ.replay n lent (before ++ (.store address width value, m) :: between)).byte? r (offset + j) =
      some (Block.byteOf value j) := by
  obtain ⟨hmemory, _, hserves⟩ := h.at_request
  obtain ⟨c, hc, _⟩ := hserves address width r offset hl
  have hbefore : μ.replay n lent before r = some c.stored := by
    rw [← hmemory, Heap.memory_of_some hc]
  have hsplit : μ.replay n lent (before ++ (.store address width value, m) :: between) =
      (μ.replay n lent (before ++ [(.store address width value, m)])).replay n lent between := by
    simp only [replay, List.foldl_append, List.foldl_cons, List.foldl_nil]
  have hstored : μ.replay n lent (before ++ [(.store address width value, m)]) =
      (μ.replay n lent before).write r (·.store offset width value) := by
    rw [replay, List.foldl_append, List.foldl_cons, List.foldl_nil, Action.leaves_store_of_lent hl,
      replay]
  rw [List.append_cons] at h
  rw [hsplit, h.of_append.byte?_replay hspares, hstored]
  have hin : offset ≤ offset + j ∧ offset + j < offset + width := by omega
  simp only [byte?, write, put, ↓reduceIte, hbefore, Option.map_some, Block.store, hin, and_self,
    Nat.add_sub_cancel_left]

end Memory.Tracks

/-! ### Native functions -/

namespace CallPlan.Enters

variable {p : CallPlan} {args : List Value} {s : Marshalled} {code : Behaviour UInt64}

/-- What was lent to a native function is found whenever it makes a request. -/
theorem serves (he : p.Enters args m s code m₁) (hm : m.Regular G gs)
    (hmoves : Moves [] m₁ (ofGuards []) m') (hr : m'.host.Roomy) :
    m'.host.heap.Serves (m.host.heap.loan args) := by
  intro address width r offset hl
  obtain ⟨hvalue, c, hc, haddress, hlt, hle⟩ := exists_of_loan hl
  obtain ⟨c', hc', hbase, hshape⟩ := he.kept hm hmoves hr.unwrapped hvalue hc
  have hsize : c'.block.size = c.block.size := congrArg (8 * ·.2.2) hshape
  have hmapped := (((hm.enters he).moves hmoves).laid).mapped hr.room
  refine ⟨c', hc', ?_⟩
  rw [haddress, ← hbase]
  exact hmapped.atAddress?_eq hc' (by omega) (by omega)

/-- From any point of a native function on its requests tell what it leaves. -/
theorem tracks (he : p.Enters args m s code m₁) (hm : m.Regular G gs) {rest : Behaviour UInt64}
    (hmoves : Moves [] m₁ (ofGuards []) m')
    (hr : (((Nested.ofDepth d).runCode rest).after m').host.Roomy)
    (hw : ∀ x ∈ (Nested.ofDepth d).requests rest m', x.1.Within (m.host.heap.loan args)) :
    Memory.Tracks (.ofDepth d) (m.host.heap.loan args) m'.host.heap.memory
      ((Nested.ofDepth d).requests rest m')
      (((Nested.ofDepth d).runCode rest).after m').host.heap.memory := by
  induction rest generalizing m' with
  | done => exact .nil
  | ask q next ih =>
    have hn := Nested.lawful_ofDepth d
    have hbegun := hm.enters he
    have hregular : m'.Regular G (s.guards ++ gs) := hbegun.moves hmoves
    have hstep : Moves (ofGuards []) m' (ofGuards []) (((Nested.ofDepth d).answer q).after m') :=
      hn.answer q hregular.orderly
    have hlater := hbegun.moves (hmoves.trans hstep)
    have hrest : Moves [] _ [] (((Nested.ofDepth d).runCode (.ask q next)).after m') :=
      hn.runCode (next _) hlater.orderly
    have hroomy : m'.host.Roomy := (hstep.trans hrest).roomy hregular.laid hr
    have hserves := he.serves hm hmoves hroomy
    have hwithin := hw _ List.mem_cons_self
    refine .cons hwithin hserves ?_ ?_
    · exact Nested.memory_answer hregular.orderly hregular.laid.sound hserves hwithin
    · exact ih _ (hmoves.trans hstep) hr fun x hx => hw x (List.mem_cons_of_mem _ hx)

end CallPlan.Enters

/-! ### Calls -/

/-- A native function stored in place. It was handed some values, made requests, and in the end left
a heap. -/
structure StoresInPlace (n : Nested) (h : Heap) (args : List Value) (qs : List (Action × Machine))
    (h' : Heap) : Prop where
  /-- There is stored what the requests left, one after another. -/
  memory : h'.memory = h.memory.replay n (h.loan args) qs
  /-- So it was at each request. -/
  during : ∀ before q m after, qs = before ++ (q, m) :: after →
    m.host.heap.memory = h.memory.replay n (h.loan args) before
  /-- No store is refused. -/
  accepted : ∀ address width value m, (.store address width value, m) ∈ qs →
    (n.answer (.store address width value)).result m = .word (some value)
  /-- The bytes of a store are there until another request goes to them. -/
  latest : ∀ before address width value m between after r offset j,
    qs = before ++ (.store address width value, m) :: (between ++ after) →
    h.loan args address width = some (r, offset) → j < width →
    (∀ x ∈ between, Action.Spares n (h.loan args) r (offset + j) x) →
    (h.memory.replay n (h.loan args)
      (before ++ (.store address width value, m) :: between)).byte? r (offset + j) =
        some (Block.byteOf value j)
  /-- A load gives what is stored at the time, the lowest byte first. -/
  loaded : ∀ before address width m after, qs = before ++ (.load address width, m) :: after →
    ∃ r offset c, h.loan args address width = some (r, offset) ∧
      h.memory.replay n (h.loan args) before r = some c ∧
      (n.answer (.load address width)).result m = .word (some (c.block.load offset width)) ∧
      (width ≤ 8 → (c.block.load offset width).toNat =
        Nat.ofDigits 256 (c.block.bytes offset width))
  /-- An array is read as its bytes show. -/
  arrays : ∀ r c k, h.memory.replay n (h.loan args) qs r = some c → c.kind = .array k →
    ∃ values, h'.readArray k r = .ok values ∧ values.length = c.length ∧
      ∀ i v, values[i]? = some v → k.Shows (c.block.bytes (i * k.size) k.size) v
  /-- A field is read as its bytes show. -/
  fields : ∀ r c className i, h.memory.replay n (h.loan args) qs r = some c →
    c.kind = .ofClass className → i < c.length →
    ∃ v, h'.readField r i = .ok v ∧ ElemKind.long.Shows (c.block.bytes (i * 8) 8) v
  /-- A byte that no request goes to is as it was. -/
  spared : ∀ r i, (∀ x ∈ qs, Action.Spares n (h.loan args) r i x) →
    h'.memory.byte? r i = h.memory.byte? r i
  /-- A cell that was not handed over is as it was, unless an operation of the function changed
  it. -/
  others : ∀ r, .ref (some r) ∉ args →
    (∀ op m, (.step op, m) ∈ qs →
      ((n.step op).after m).host.heap.memory r = m.host.heap.memory r) →
    h'.memory r = h.memory r

theorem Memory.Tracks.storesInPlace {h h' : Heap} {args : List Value}
    {qs : List (Action × Machine)} (ht : Tracks n (h.loan args) h.memory qs h'.memory) :
    StoresInPlace n h args qs h' where
  memory := ht.eq_replay
  during before q m after hqs := (hqs ▸ ht).at_request.1
  accepted address width value m hm := by
    obtain ⟨before, after, hqs⟩ := List.append_of_mem hm
    obtain ⟨_, hw, hserves⟩ := (hqs ▸ ht).at_request
    exact (Nested.answer_store hserves hw).1
  latest before address width value m between after r offset j hqs hl hj hspares :=
    (hqs ▸ ht).byte?_of_store hl hj hspares
  loaded before address width m after hqs := by
    obtain ⟨hmemory, hw, hserves⟩ := (hqs ▸ ht).at_request
    obtain ⟨⟨r, offset⟩, hl⟩ := Option.isSome_iff_exists.1 hw
    obtain ⟨c, hc, hload⟩ := hserves.load? hl
    rw [hmemory] at hc
    refine ⟨r, offset, c, hl, hc, ?_, fun hwidth => Block.toNat_load hwidth⟩
    simp only [Nested.answer, Work.result_bind, Work.result_host, Work.after_host,
      Work.result_pure, hload]
  arrays r c k hc hk := by
    rw [← ht.eq_replay] at hc
    refine ⟨_, Heap.readArray_of_memory hc hk, Block.length_elements .., fun i v hv => ?_⟩
    obtain ⟨hi, rfl⟩ := List.getElem?_eq_some_iff.1 hv
    simp only [Block.elements, List.getElem_map, List.getElem_range]
    exact Block.shows_element
  fields r c className i hc hk hi := by
    rw [← ht.eq_replay] at hc
    exact ⟨_, Heap.readField_of_memory hc hk hi, Block.shows_element⟩
  spared r i hspares := by
    have hall : Tracks n (h.loan args) h.memory (qs ++ []) h'.memory := by
      rwa [List.append_nil]
    rw [ht.eq_replay]
    exact hall.byte?_replay hspares
  others r hr hops := by
    refine ht.eq_of_not_lent (fun address width offset hl => ?_) hops
    exact hr (exists_of_loan hl).1

/-- To hand over arguments makes no difference to what is stored. -/
theorem CallPlan.memory_marshal (p : CallPlan) (h : Heap) (args : List Value) :
    (p.marshal h args).2.heap.memory = h.memory :=
  Heap.memory_of_sameUnpinned (p.pins_marshal h args).sameUnpinned

theorem Dispatch.memory_call_of_not_enters (n : Nested) (p : CallPlan) (args : List Value)
    (m : Machine) (hno : ¬∃ s code m₁, p.Enters args m s code m₁) :
    ((call n p args).after m).host.heap.memory = m.host.heap.memory := by
  obtain ⟨heap, _, hheap, hafter⟩ := after_call_of_not_enters n p args m hno
  rw [hafter]
  rcases hheap with rfl | rfl
  · rfl
  · exact (Heap.memory_unpinAll _).trans (p.memory_marshal m.host.heap args)

/-- Where one is entered, it stores in place. -/
theorem CallPlan.Enters.storesInPlace {p : CallPlan} {args : List Value} {s : Marshalled}
    {code : Behaviour UInt64} (he : p.Enters args m s code m₁) (hm : m.Regular G gs)
    (hw : ∀ x ∈ (Nested.ofDepth d).requests code m₁, x.1.Within (m.host.heap.loan args))
    (hr : (((Nested.ofDepth d).runCode code).after m₁).host.Roomy) :
    StoresInPlace (.ofDepth d) m.host.heap args ((Nested.ofDepth d).requests code m₁)
      ((Dispatch.call (.ofDepth d) p args).after m).host.heap := by
  have hbegins : m₁.host.heap.memory = m.host.heap.memory := by
    have hmarshal := p.memory_marshal m.host.heap args
    rw [he.handed] at hmarshal
    rw [he.begins]
    exact hmarshal
  have hends : ((Dispatch.call (.ofDepth d) p args).after m).host.heap.memory =
      (((Nested.ofDepth d).runCode code).after m₁).host.heap.memory := by
    rw [he.after_call]
    exact Heap.memory_unpinAll _
  have htracks := he.tracks hm (.refl _ _) hr hw
  rw [hbegins, ← hends] at htracks
  exact htracks.storesInPlace

theorem DispatchOp.Calls.heap_perform {op : DispatchOp} {p : CallPlan} {values : List Value}
    (h : op.Calls n m p values m') :
    ((op.perform n).after m).host.heap = ((Dispatch.call n p values).after m').host.heap := by
  have hcalling : ∀ {args name f}, m.host.arguments args = .ok values →
      ((calling args name f).after m).host.heap = ((f values).after m).host.heap := by
    intro args name f hargs
    unfold calling
    simp only [Work.after_bind, Work.result_host, Work.after_host, hargs]
    cases (f values).result m with
    | error e => rfl
    | ok result =>
      simp only
      split <;> rfl
  cases h with
  | invoke hrs hargs hp =>
    simp only [perform, withReplacements, Work.after_bind, Work.result_host, Work.after_host, hrs]
    rw [hcalling hargs]
    simp only [Dispatch.invoke_eq, Work.after_bind, hp]
  | invokeEntry hentry hargs hp =>
    simp only [perform, withEntry, Work.after_bind, Work.result_host, Work.after_host, hentry]
    rw [hcalling hargs]
    simp only [Dispatch.interpret, Work.after_bind, hp]
  | call hcall hargs =>
    simp only [perform, Work.after_bind, Work.result_host, Work.after_host, hcall]
    exact hcalling hargs

/-- Native stores are in place. Every host begins regular unless it lays a block at null, operations
leave a machine regular, and it is regular at each moment of a native function, also within its
calls. Where an operation makes a call, of a program or of a native function, the machine is regular
when the call begins, and the operation leaves the heap as the call does.

A call that begins at a regular machine hands over the addresses of its arguments. As long as the
native function goes to memory only within their blocks, and there is room in the end, it stores in
place: what is stored after the call, in every cell and under every name of it, are the bytes that
its stores left, and what its operations did; a load gives just what is stored at the time; arrays
and fields are read as their bytes show; and all else is as it was. Where no native function is
entered, nothing is stored. -/
theorem native_stores_in_place (d : Nat) :
    ((∀ program, 0 < program.layout.first → (Machine.ofProgram program).Regular [] []) ∧
      ∀ G m program, Machine.Orderly G m → 0 < program.layout.first →
        (m.enter program).Regular G []) ∧
    ∀ (G : List UnitHandle) (gs : List Guard) (m : Machine), m.Regular G gs →
      (∀ ops : List Op, ((ops.mapM (Op.answer (.ofDepth d))).after m).Regular G gs) ∧
      (∀ (p : CallPlan) (args : List Value) s code m₁ m', p.Enters args m s code m₁ →
        Moment d code m₁ m' → ∃ gs', m'.Regular G (gs' ++ gs)) ∧
      (∀ (op : DispatchOp) (p : CallPlan) (values : List Value) m',
        op.Calls (.ofDepth d) { m with journal := [] } p values m' → m'.Regular G gs ∧
          (((Op.dispatch op).answer (.ofDepth d)).after m).host.heap =
            ((Dispatch.call (.ofDepth d) p values).after m').host.heap) ∧
      ∀ (p : CallPlan) (args : List Value),
        let h' := ((Dispatch.call (.ofDepth d) p args).after m).host.heap
        ((¬∃ s code m₁, p.Enters args m s code m₁) → h'.memory = m.host.heap.memory) ∧
        ∀ s code m₁, p.Enters args m s code m₁ →
          s.args.filterMap NativeArg.address? = args.filterMap m.host.heap.pointer? ∧
          let requests := (Nested.ofDepth d).requests code m₁
          ((∀ x ∈ requests, x.1.Within (m.host.heap.loan args)) →
            (((Nested.ofDepth d).runCode code).after m₁).host.Roomy →
            StoresInPlace (.ofDepth d) m.host.heap args requests h') := by
  have hn := Nested.lawful_ofDepth d
  refine ⟨⟨fun program h => .ofProgram h, fun G m program ho h => .enter ho h⟩,
    fun G gs m hm => ⟨fun ops => hm.answers hn ops, ?_, ?_, fun p args => ⟨?_, ?_⟩⟩⟩
  · intro p args s code m₁ m' he hmoment
    obtain ⟨gs', hm'⟩ := (hm.enters he).moment hmoment
    exact ⟨gs' ++ s.guards, by rwa [List.append_assoc]⟩
  · intro op p values m' hc
    have hquiet : Moves [] m (ofGuards []) { m with journal := [] } := .quiet (.refl m.host) id
    have hbegun := hm.moves hquiet
    have hmoves : Moves [] { m with journal := [] } (ofGuards []) m' := hc.moves hn hbegun.orderly
    exact ⟨hbegun.moves hmoves, hc.heap_perform⟩
  · exact Dispatch.memory_call_of_not_enters _ p args m
  · intro s code m₁ he
    exact ⟨(CallPlan.handed_marshal he.count he.handed).pointers,
      fun hw hr => he.storesInPlace hm hw hr⟩

/-- Stores into its first argument, collects, has the host write to the same array and call another
function with it, and keeps what it then loads through its second argument in a field of its
third. -/
def poke (func : CodeRef) (args : List NativeArg) : Behaviour UInt64 :=
  let pointer (i : Nat) : UInt64 := (args[i]?.map NativeArg.toWord).getD 0
  if func.symbol = "inner" then .ask (.store (pointer 0 + 2) 1 0) fun _ => .done 0
  else
    .ask (.store (pointer 0 + 1) 2 0x8040) fun _ => .ask (.step (.heap .relocate)) fun _ =>
      .ask (.step (.heap (.write .boolean "a" [true]))) fun _ =>
        .ask (.step (.dispatch (.invokeEntry "inner" [.obj "a"] none))) fun _ =>
          .ask (.load (pointer 2) 4) fun reply =>
            .ask (.store (pointer 4 + 8) 8 (match reply with | .word (some w) => w | _ => 0))
              fun _ => .done 0

def pokeEntry (name : String) (params : List ParamKind) : Entry where
  unit := "Poke"
  method := ⟨"Poke", name, "()V"⟩
  nativeName := name
  target := .direct ⟨none, name⟩
  convention := ⟨false, params, .void⟩

def poking : Program where
  settings := {}
  layout := ⟨64, 0⟩
  source := { load := fun _ => .error .notBuiltIn, contains := fun _ => false }
  native := fun func => some (poke func)
  provider := fun _ => none
  steps := [.heap (.newArray .boolean 3 "a"), .heap (.newArrayFrom .int [5, 6] "b"),
    .heap (.newObject "Box" 2 "o"),
    .dispatch (.entry { unit := none, method := ⟨"Poke", "inner", "()V"⟩, nativeName := "inner"
                        func := some ⟨none, "inner"⟩, provider := none
                        tags := (pokeEntry "inner" [.array .boolean]).convention.toTags } "inner")]

/-- An array that is handed over twice, and an instance. -/
theorem native_stores_in_place_poking :
    let m := (poking.steps.mapM (Op.answer (.ofDepth 1))).after (.ofProgram poking)
    let args := [.ref (some ⟨0, 0⟩), .ref (some ⟨0, 0⟩), .ref (some ⟨2, 0⟩)]
    let p := CallPlan.ofEntry (pokeEntry "outer" [.array .boolean, .array .boolean, .object])
      ⟨none, "outer"⟩
    let h' := ((Dispatch.call (.ofDepth 1) p args).after m).host.heap
    h'.readArray .boolean ⟨0, 0⟩ = .ok [true, true, false] ∧
      h'.readField ⟨2, 0⟩ 1 = .ok 0x4001 ∧ h'.readArray .int ⟨1, 0⟩ = .ok [5, 6] := by
  intro m args p h'
  obtain ⟨⟨hprogram, -⟩, hregular⟩ := native_stores_in_place 1
  have hstart := hprogram poking (by decide)
  have hm : m.Regular [] [] := (hregular [] [] _ hstart).1 poking.steps
  obtain ⟨-, -, -, hcall⟩ := hregular [] [] m hm
  -- What is handed over, and how the native function begins.
  let s : Marshalled := (p.marshal m.host.heap args).2
  let code : Behaviour UInt64 := poke ⟨none, "outer"⟩ s.args
  let m₁ : Machine := { m with
    host := { m.host with heap := s.heap }
    trace := m.trace ++ [.called ⟨none, "outer"⟩ s.args] }
  have henters : p.Enters args m s code m₁ := ⟨rfl, rfl, Prod.ext (by decide +kernel) rfl, rfl, rfl⟩
  let requests := (Nested.ofDepth 1).requests code m₁
  have hwithin : ∀ x ∈ requests, x.1.Within (m.host.heap.loan args) := by decide +kernel
  have hroomy : (((Nested.ofDepth 1).runCode code).after m₁).host.Roomy :=
    ⟨by decide +kernel, by decide +kernel⟩
  have hstores : StoresInPlace (.ofDepth 1) m.host.heap args requests h' :=
    ((hcall p args).2 s code m₁ henters).2 hwithin hroomy
  -- What the requests left, and with it what is read.
  let left : Memory := m.host.heap.memory.replay (.ofDepth 1) (m.host.heap.loan args) requests
  have harray : (left ⟨0, 0⟩).map (fun c => (c.kind, c.length, (List.range 3).map
      fun i => c.block.bytes i 1)) = some (.array .boolean, 3, [[1], [0x40], [0]]) := by
    decide +kernel
  have hbox : (left ⟨2, 0⟩).map (fun c => (c.kind, c.length, c.block.bytes 8 8)) =
      some (.ofClass "Box", 2, [1, 0x40, 0, 0, 0, 0, 0, 0]) := by decide +kernel
  refine ⟨?_, ?_, by decide +kernel⟩
  · obtain ⟨c, hc, heq⟩ := Option.map_eq_some_iff.1 harray
    simp only [Prod.mk.injEq] at heq
    obtain ⟨hkind, hlength, hbytes⟩ := heq
    simp only [List.range, List.range.loop, List.map_cons, List.map_nil, List.cons.injEq] at hbytes
    obtain ⟨h₀, h₁, h₂, -⟩ := hbytes
    obtain ⟨values, hread, hlen, hshow⟩ := hstores.arrays ⟨0, 0⟩ c .boolean hc hkind
    obtain ⟨x, y, z, rfl⟩ := List.length_eq_three.1 (hlen.trans hlength)
    have hx : x = true ↔ c.block.bytes 0 1 ≠ [0] := hshow 0 x rfl
    have hy : y = true ↔ c.block.bytes 1 1 ≠ [0] := hshow 1 y rfl
    have hz : z = true ↔ c.block.bytes 2 1 ≠ [0] := hshow 2 z rfl
    rw [h₀] at hx
    rw [h₁] at hy
    rw [h₂] at hz
    have hfalse : z = false := Bool.eq_false_iff.2 fun h => hz.1 h rfl
    rw [hread, hx.2 (by decide), hy.2 (by decide), hfalse]
  · obtain ⟨c, hc, heq⟩ := Option.map_eq_some_iff.1 hbox
    simp only [Prod.mk.injEq] at heq
    obtain ⟨hkind, hlength, hbytes⟩ := heq
    obtain ⟨v, hread, hshow⟩ := hstores.fields ⟨2, 0⟩ c "Box" 1 hc hkind (by omega)
    have hv : v.toUInt64.toNat = Nat.ofDigits 256 (c.block.bytes 8 8) := hshow
    rw [hbytes] at hv
    have hword : ElemKind.long.toWord v = 0x4001 := UInt64.toNat_inj.1 hv
    rw [hread, ← ElemKind.ofWord_toWord .long v, hword]
    rfl

/-- The same call, of an instance that has as many pins as are counted. Pinned once more it has
none, so that it moves when the native function collects, and what is stored to its field then is
lost. -/
theorem native_store_lost_among_pins :
    let program := poking.pinning "o" mostPins
    let m := (program.steps.mapM (Op.answer (.ofDepth 1))).after (.ofProgram program)
    let args := [.ref (some ⟨0, 0⟩), .ref (some ⟨0, 0⟩), .ref (some ⟨2, 0⟩)]
    let p := CallPlan.ofEntry (pokeEntry "outer" [.array .boolean, .array .boolean, .object])
      ⟨none, "outer"⟩
    let h' := ((Dispatch.call (.ofDepth 1) p args).after m).host.heap
    ∃ s code m₁, p.Enters args m s code m₁ ∧
      let requests := (Nested.ofDepth 1).requests code m₁
      (∀ x ∈ requests, x.1.Within (m.host.heap.loan args)) ∧ h'.readField ⟨2, 0⟩ 1 = .ok 0 ∧
        ¬StoresInPlace (.ofDepth 1) m.host.heap args requests h' := by
  intro program m args p h'
  unfold h' m program
  rw [poking.after_pinning (.ofDepth 1) "o" ⟨2, 0⟩ (by decide +kernel)
    (by decide +kernel) rfl le_rfl]
  generalize hm : Machine.withHost _ _ = m'
  let s : Marshalled := (p.marshal m'.host.heap args).2
  let code : Behaviour UInt64 := poke ⟨none, "outer"⟩ s.args
  let begun : Machine := { m' with
    host := { m'.host with heap := s.heap }
    trace := m'.trace ++ [.called ⟨none, "outer"⟩ s.args] }
  have hread : ((Dispatch.call (.ofDepth 1) p args).after m').host.heap.readField ⟨2, 0⟩ 1 =
      .ok 0 := by subst hm; decide +kernel
  refine ⟨s, code, begun, ⟨rfl, rfl, Prod.ext ?_ rfl, ?_, rfl⟩, ?_, hread, fun hstores => ?_⟩
  · subst hm; decide +kernel
  · subst hm; rfl
  · subst hm; decide +kernel
  · -- The last request stores into the field.
    have hbox : ((m'.host.heap.memory.replay (.ofDepth 1) (m'.host.heap.loan args)
        ((Nested.ofDepth 1).requests code begun)) ⟨2, 0⟩).map
          (fun c => (c.kind, c.length, c.block.bytes 8 8)) =
        some (.ofClass "Box", 2, [1, 0x40, 0, 0, 0, 0, 0, 0]) := by subst hm; decide +kernel
    obtain ⟨c, hc, heq⟩ := Option.map_eq_some_iff.1 hbox
    simp only [Prod.mk.injEq] at heq
    obtain ⟨hkind, hlength, hbytes⟩ := heq
    obtain ⟨v, hv, hshow⟩ := hstores.fields ⟨2, 0⟩ c "Box" 1 hc hkind (by omega)
    obtain rfl : 0 = v := Except.ok.inj (hread.symm.trans hv)
    have hzero : (0 : Int64).toUInt64.toNat = Nat.ofDigits 256 (c.block.bytes 8 8) := hshow
    rw [hbytes] at hzero
    exact absurd hzero (by decide)

end AccelHost
