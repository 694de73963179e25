import AccelHost.Proofs.Laid

/-!
Hosts but for places. An operation that goes by reference gives the same answer, and leaves the same
host but for places, wherever the blocks of a heap lie.
-/
namespace AccelHost

namespace Keyed

variable {κ ν μ : Type} [DecidableEq κ]

def mapValues (f : ν → μ) (t : Keyed κ ν) : Keyed κ μ := t.map fun e => (e.1, f e.2)

@[simp] theorem get?_mapValues (f : ν → μ) (t : Keyed κ ν) (k : κ) :
    (t.mapValues f).get? k = (t.get? k).map f := by
  induction t with
  | nil => rfl
  | cons e t ih => by_cases he : e.1 = k <;> simp_all [mapValues, get?]

@[simp] theorem set_mapValues (f : ν → μ) (t : Keyed κ ν) (k : κ) (v : ν) :
    (t.mapValues f).set k (f v) = (t.set k v).mapValues f := by
  induction t with
  | nil => rfl
  | cons e t ih => by_cases he : e.1 = k <;> simp_all [mapValues, set]

end Keyed

def Reply.unplaced : Reply → Reply
  | .ok (.pinned g) => .ok (.pinned g.unplaced)
  | reply => reply

/-- A host but for the places of its blocks, and for the code that it was given. -/
def Host.unplaced (h : Host) : Host :=
  { h with native := fun _ => none, provider := fun _ => none, heap := h.heap.unplaced
           addressLimit := 0, guards := h.guards.mapValues Guard.unplaced }

def unplacedAnswer (a : Reply × Host) : Reply × Host := (a.1.unplaced, a.2.unplaced)

/-- Operations that go by reference, and tell no address. -/
def HeapOp.ByReference : HeapOp → Prop
  | .mark _ | .resolveAddress _ | .resolveObject .. => False
  | _ => True

@[simp] theorem Guard.unplaced_unplaced (g : Guard) : g.unplaced.unplaced = g.unplaced := rfl

@[simp] theorem Heap.unplaced_unplaced (h : Heap) : h.unplaced.unplaced = h.unplaced := by
  have hslot : Slot.unplaced ∘ Slot.unplaced = Slot.unplaced := by
    funext s
    cases hs : s.cell <;> simp [Slot.unplaced, Cell.unplaced, hs]
  simp [unplaced, hslot]

theorem Heap.elsewhere_unplaced (h : Heap) : h.Elsewhere h.unplaced := h.unplaced_unplaced

namespace Host

variable {h h' : Host}

@[simp] theorem unplaced_unplaced (h : Host) : h.unplaced.unplaced = h.unplaced := by
  simp [unplaced, Keyed.mapValues, Function.comp_def]

theorem same {α : Type} {f : Host → α} (hf : ∀ h, f h.unplaced = f h)
    (he : h'.unplaced = h.unplaced) : f h' = f h := by rw [← hf h', he, hf h]

/-- What changes no place leaves hosts the same but for places. -/
theorem unplaced_congr {g : Host → Host} (hg : ∀ h, (g h).unplaced = g h.unplaced)
    (he : h'.unplaced = h.unplaced) : (g h').unplaced = (g h).unplaced := by rw [hg, hg, he]

theorem unplaced_heap {heap heap' : Heap} (he : h'.unplaced = h.unplaced)
    (hh : heap.Elsewhere heap') :
    ({ h' with heap := heap' } : Host).unplaced = ({ h with heap } : Host).unplaced := by
  have hheap : heap'.unplaced = heap.unplaced := hh
  have hhost : ({ h'.unplaced with heap := heap'.unplaced } : Host) =
      { h.unplaced with heap := heap.unplaced } := by rw [he, hheap]
  exact hhost

end Host

/-! ### Operations by reference -/

namespace Host

variable {h : Host}

theorem unplaced_allocate {name : Label} {bytes : Nat} {new new' : Nat → ObjRef × Heap}
    (hnew : ∀ a a', (new' a').1 = (new a).1 ∧ (new a).2.Elsewhere (new' a').2) :
    unplacedAnswer (h.unplaced.allocate name bytes new') =
      unplacedAnswer (h.allocate name bytes new) := by
  obtain ⟨hr, hheap⟩ := hnew
    (h.allocator.base h.heap h.addressLimit (Block.zeroed bytes).size)
    (h.unplaced.allocator.base h.unplaced.heap h.unplaced.addressLimit (Block.zeroed bytes).size)
  unfold allocate unplacedAnswer
  simp only [hr]
  refine Prod.ext rfl ?_
  simp only [Heap.Elsewhere, unplaced] at hheap ⊢
  simp [hheap, Keyed.mapValues, Function.comp_def]

theorem unplaced_withObject {obj : Label} {f f' : ObjRef → Except DispatchError (Outcome × Host)}
    (hf : ∀ r, (f' r).map (fun a => unplacedAnswer (.ok a.1, a.2)) =
      (f r).map fun a => unplacedAnswer (.ok a.1, a.2)) :
    unplacedAnswer (h.unplaced.withObject obj f') = unplacedAnswer (h.withObject obj f) := by
  unfold withObject
  have hobjects : h.unplaced.objects = h.objects := rfl
  rw [hobjects]
  cases h.objects.get? obj with
  | none => exact Prod.ext rfl h.unplaced_unplaced
  | some r =>
    have hr := hf r
    cases hx : f r with
    | error e =>
      cases hy : f' r with
      | error e' =>
        rw [hx, hy] at hr
        cases hr
        simp only [hx, hy]
        exact Prod.ext rfl h.unplaced_unplaced
      | ok b =>
        rw [hx, hy] at hr
        cases hr
    | ok a =>
      cases hy : f' r with
      | error e =>
        rw [hx, hy] at hr
        cases hr
      | ok b =>
        rw [hx, hy] at hr
        simp only [hx, hy]
        exact Except.ok.inj hr

theorem unplaced_askObject {obj : Label} {f f' : ObjRef → Except DispatchError Outcome}
    (hf : f' = f) :
    unplacedAnswer (h.unplaced.askObject obj f') = unplacedAnswer (h.askObject obj f) := by
  subst hf
  refine unplaced_withObject fun r => ?_
  cases f' r with
  | error e => rfl
  | ok a => exact congrArg Except.ok (Prod.ext rfl h.unplaced_unplaced)

theorem unplaced_changeObject {obj : Label} {f f' : ObjRef → Except DispatchError Heap}
    (hf : ∀ r, f' r = (f r).map Heap.unplaced) :
    unplacedAnswer (h.unplaced.changeObject obj f') = unplacedAnswer (h.changeObject obj f) := by
  refine unplaced_withObject fun r => ?_
  rw [hf r]
  cases f r with
  | error e => rfl
  | ok heap =>
    exact congrArg Except.ok (Prod.ext rfl
      (unplaced_heap h.unplaced_unplaced heap.elsewhere_unplaced))

theorem unplaced_unpin (g : Guard) : (h.unpin g).unplaced = h.unplaced.unpin g.unplaced := by
  have hheap : (h.heap.unpin g).unplaced = h.heap.unplaced.unpin g.unplaced := Heap.unpin_unplaced
  simp only [unpin, unplaced] at hheap ⊢
  rw [hheap]

theorem unplaced_keepGuard (name : Label) (g : Guard) :
    (h.keepGuard name g).unplaced = h.unplaced.keepGuard name g.unplaced := by
  have hset : ({ h with guards := h.guards.set name g } : Host).unplaced =
      { h.unplaced with guards := h.unplaced.guards.set name g.unplaced } := by
    simp [unplaced]
  have hget : h.unplaced.guards.get? name = (h.guards.get? name).map Guard.unplaced :=
    Keyed.get?_mapValues _ _ _
  unfold keepGuard
  rw [hget]
  cases h.guards.get? name with
  | none => exact hset
  | some old => exact (unplaced_unpin old).trans (congrArg (·.unpin old.unplaced) hset)

end Host

namespace HeapOp

/-- An operation by reference does the same wherever blocks lie. A collection tells what moved. -/
theorem perform_unplaced {op : HeapOp} (hop : op.ByReference) (hne : op ≠ .relocate) (h : Host) :
    unplacedAnswer (op.perform h.unplaced) = unplacedAnswer (op.perform h) := by
  have hheap : h.unplaced.heap = h.heap.unplaced := rfl
  cases op with
  | newObject | newArray | newArrayFrom =>
    exact Host.unplaced_allocate fun _ _ => h.heap.elsewhere_unplaced.insert rfl
  | «foreign» r name =>
    have hname : ∀ h : Host, ({ h with objects := h.objects.set name r } : Host).unplaced =
        { h.unplaced with objects := h.unplaced.objects.set name r } := fun _ => rfl
    exact Prod.ext rfl (Host.unplaced_congr hname h.unplaced_unplaced)
  | free obj => exact Host.unplaced_changeObject fun r => Heap.freeCell_unplaced
  | kind obj =>
    exact Host.unplaced_askObject (funext fun r => by rw [hheap, Heap.kind_unplaced])
  | arrayLength obj =>
    exact Host.unplaced_askObject (funext fun r => by rw [hheap, Heap.arrayLength_unplaced])
  | read k obj =>
    exact Host.unplaced_askObject (funext fun r => by rw [hheap, Heap.readArray_unplaced])
  | write k obj values => exact Host.unplaced_changeObject fun r => Heap.writeArray_unplaced
  | readField obj index =>
    exact Host.unplaced_askObject (funext fun r => by rw [hheap, Heap.readField_unplaced])
  | writeField obj index value => exact Host.unplaced_changeObject fun r => Heap.writeField_unplaced
  | resolveAddress | resolveObject | mark => exact hop.elim
  | pin obj name =>
    refine Host.unplaced_withObject fun r => ?_
    rw [hheap, Heap.pin_unplaced]
    cases h.heap.pin r with
    | error e => rfl
    | ok pinned =>
      obtain ⟨g, heap⟩ := pinned
      refine congrArg Except.ok (Prod.ext rfl ?_)
      have hhost : ({ h.unplaced with heap := heap.unplaced } : Host).unplaced =
          ({ h with heap } : Host).unplaced :=
        Host.unplaced_heap h.unplaced_unplaced heap.elsewhere_unplaced
      have hleft := Host.unplaced_keepGuard (h := { h.unplaced with heap := heap.unplaced }) name
        g.unplaced
      have hright := Host.unplaced_keepGuard (h := { h with heap }) name g
      exact hleft.trans ((congrArg (·.keepGuard name g.unplaced) hhost).trans hright.symm)
  | unpin name =>
    have hget : h.unplaced.guards.get? name = (h.guards.get? name).map Guard.unplaced :=
      Keyed.get?_mapValues _ _ _
    simp only [perform, hget]
    cases h.guards.get? name with
    | none => exact Prod.ext rfl h.unplaced_unplaced
    | some g =>
      have herase : ({ h.unplaced with guards := h.unplaced.guards.erase name } : Host).unplaced =
          ({ h with guards := h.guards.erase name } : Host).unplaced := by
        simp [Host.unplaced, Keyed.mapValues, Keyed.erase, Function.comp_def, List.filter_map]
      refine Prod.ext rfl ?_
      have hleft := Host.unplaced_unpin
        (h := { h.unplaced with guards := h.unplaced.guards.erase name }) g.unplaced
      have hright := Host.unplaced_unpin (h := { h with guards := h.guards.erase name }) g
      exact hleft.trans ((congrArg (·.unpin g.unplaced) herase).trans hright.symm)
  | isPinned obj =>
    exact Host.unplaced_askObject (funext fun r => by rw [hheap, Heap.isPinned_unplaced])
  | relocate => exact absurd rfl hne
  | size =>
    simp only [perform, hheap, Heap.size_unplaced]
    exact Prod.ext rfl h.unplaced_unplaced
  | display obj => exact Host.unplaced_askObject rfl

end HeapOp

end AccelHost
