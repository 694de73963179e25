import AccelHost.Proofs.Growth
import Mathlib.Data.List.Perm.Lattice

/-!
The moves of a machine. Whatever a host, a unit or a native function does comes down to moves of a
few kinds, each of which changes little. Work in progress holds units and guards that are nowhere
in the host meanwhile: `Moves X m Y m'` says that moves lead from a machine to another one, while
what is held changes from `X` to `Y`.
-/
namespace AccelHost

/-- What work in progress has in hand: a unit of no registry in the host, a guard without a name. -/
inductive Holding where
  | unit (x : UnitHandle)
  | guard (g : Guard)
deriving DecidableEq

namespace Holding

def unit? : Holding → Option UnitHandle
  | unit x => some x
  | guard _ => none

def guard? : Holding → Option Guard
  | unit _ => none
  | guard g => some g

def units (X : List Holding) : List UnitHandle := X.filterMap unit?

def guards (X : List Holding) : List Guard := X.filterMap guard?

def ofUnits (xs : List UnitHandle) : List Holding := xs.map unit

def ofGuards (gs : List Guard) : List Holding := gs.map guard

@[simp] theorem units_nil : units [] = [] := rfl

@[simp] theorem units_cons_unit (x : UnitHandle) (X : List Holding) :
    units (.unit x :: X) = x :: units X := rfl

@[simp] theorem units_cons_guard (g : Guard) (X : List Holding) :
    units (.guard g :: X) = units X := rfl

@[simp] theorem units_append (X Y : List Holding) : units (X ++ Y) = units X ++ units Y :=
  List.filterMap_append

@[simp] theorem units_ofUnits (xs : List UnitHandle) : units (ofUnits xs) = xs := by
  induction xs with
  | nil => rfl
  | cons x xs ih => simpa [ofUnits] using ih

@[simp] theorem units_ofGuards (gs : List Guard) : units (ofGuards gs) = [] := by
  induction gs with
  | nil => rfl
  | cons g gs ih => simpa [ofGuards] using ih

@[simp] theorem mem_units {x : UnitHandle} {X : List Holding} : x ∈ units X ↔ .unit x ∈ X := by
  simp only [units, List.mem_filterMap]
  constructor
  · rintro ⟨y, hy, hx⟩
    cases y with
    | unit z => cases hx; exact hy
    | guard g => cases hx
  · intro h
    exact ⟨_, h, rfl⟩

@[simp] theorem guards_nil : guards [] = [] := rfl

@[simp] theorem guards_cons_unit (x : UnitHandle) (X : List Holding) :
    guards (.unit x :: X) = guards X := rfl

@[simp] theorem guards_cons_guard (g : Guard) (X : List Holding) :
    guards (.guard g :: X) = g :: guards X := rfl

@[simp] theorem guards_append (X Y : List Holding) : guards (X ++ Y) = guards X ++ guards Y :=
  List.filterMap_append

@[simp] theorem guards_ofUnits (xs : List UnitHandle) : guards (ofUnits xs) = [] := by
  induction xs with
  | nil => rfl
  | cons x xs ih => simpa [ofUnits] using ih

@[simp] theorem guards_ofGuards (gs : List Guard) : guards (ofGuards gs) = gs := by
  induction gs with
  | nil => rfl
  | cons g gs ih => simpa [ofGuards] using ih

theorem units_perm {X Y : List Holding} (h : X.Perm Y) : (units X).Perm (units Y) :=
  h.filterMap _

theorem guards_perm {X Y : List Holding} (h : X.Perm Y) : (guards X).Perm (guards Y) :=
  h.filterMap _

end Holding

def TraceEvent.unit? : TraceEvent → Option UnitHandle
  | entered _ x | left _ x _ _ | advanced x _ _ | attached x | released x => some x
  | asked .. | called .. => none

/-! ### What the moves speak of -/

def Heap.Writes (h h' : Heap) : Prop :=
  ∃ r c b, h.cell? r = some c ∧ b.words = c.block.words ∧ h' = h.setBlock r c b

/-- One change of a heap that leaves the pins alone. -/
inductive Heap.Step (h : Heap) : Heap → Prop where
  | insert {c : Cell} : c.pins = 0 → Step h (h.insert c).2
  | free {r : ObjRef} {h' : Heap} : h.freeCell r = .ok h' → Step h h'
  | write {h' : Heap} : h.Writes h' → Step h h'
  | move {i : Nat} {c : Cell} {base : Nat} : h.movable? i = some c → Step h (h.move i c base)

/-- One change of a heap whose blocks lie below a limit, with the limit after it. -/
inductive Heap.LaidStep (h : Heap) (limit : Nat) : Heap → Nat → Prop where
  | insert {c : Cell} {limit' : Nat} : c.pins = 0 → 0 < c.block.size →
      h.Lays limit c.base c.block.size limit' → LaidStep h limit (h.insert c).2 limit'
  | free {r : ObjRef} {h' : Heap} : h.freeCell r = .ok h' → LaidStep h limit h' limit
  | write {h' : Heap} : h.Writes h' → LaidStep h limit h' limit
  | move {i : Nat} {c : Cell} {base limit' : Nat} : h.movable? i = some c →
      h.Lays limit base c.block.size limit' → LaidStep h limit (h.move i c base) limit'

namespace Heap.LaidStep

variable {h h' : Heap} {limit limit' : Nat}

theorem step (hs : h.LaidStep limit h' limit') : h.Step h' := by
  cases hs with
  | insert hp => exact .insert hp
  | free hf => exact .free hf
  | write hw => exact .write hw
  | move hm => exact .move hm

theorem le (hs : h.LaidStep limit h' limit') : limit ≤ limit' := by
  cases hs with
  | insert _ _ hlays | move _ hlays => exact Nat.le_of_add_right_le hlays.grows
  | free | write => exact Nat.le_refl _

end Heap.LaidStep

namespace Host

variable (h : Host)

/-- A registry whose units all are in a state and have the modules that they were loaded from. -/
def Holds (state : UnitState) (r : Registry) : Prop :=
  r.Owned ∧ ∀ u ∈ r.units, u.state = state ∧
    ∃ m, h.source.load u.option = .ok m ∧ h.modules.get? u.handle = some m

/-- The native function of an entry, if it is known without asking. -/
def native? (e : Entry) : Option CodeRef :=
  match e.target with
  | .direct code => some code
  | .provided .. => (h.provided.get? e.id).join

def serve (r : Registry) : Host :=
  { h with
    runtime := some { registry := r, replacements := { id := h.serial, published := r } }
    serial := h.serial + 1 }

def expose (published : Registry) : Host :=
  { h with bareReplacements := some { id := h.serial, published }, serial := h.serial + 1 }

/-- Only names, marks, numbers, locks and the limit of the addresses are different. -/
structure Quiet (h' : Host) : Prop where
  rest : h' = { h with objects := h'.objects, marks := h'.marks, entries := h'.entries,
                       calls := h'.calls, addressLimit := h'.addressLimit, locks := h'.locks,
                       serial := h'.serial }
  serial : h.serial ≤ h'.serial
  addressLimit : h.addressLimit ≤ h'.addressLimit

end Host

namespace Machine

variable (m : Machine)

def withHost (h : Host) : Machine := { m with host := h }

def push (s : Session) : Machine :=
  m.withHost { m.host with sessions := s :: m.host.sessions }

def pop : Machine := m.withHost { m.host with sessions := m.host.sessions.tail }

def enter (p : Program) : Machine := { m with host := .ofProgram p, waiting := m.host :: m.waiting }

def leave : Machine :=
  match m.waiting with
  | host :: waiting => { m with host, waiting }
  | [] => m

end Machine

open Holding in
/-- Moves of a machine, with what work in progress holds before and after them. -/
inductive Moves : List Holding → Machine → List Holding → Machine → Prop where
  | perm {X Y : List Holding} {m : Machine} : X.Perm Y → Moves X m Y m
  | trans {X Y Z : List Holding} {m₁ m₂ m₃ : Machine} :
      Moves X m₁ Y m₂ → Moves Y m₂ Z m₃ → Moves X m₁ Z m₃
  | quiet {X : List Holding} {m : Machine} {h : Host} {j : List Event} {stuck : Bool} :
      m.host.Quiet h → (m.stuck = true → stuck = true) →
      Moves X m X { m with host := h, journal := j, stuck }
  | event {X : List Holding} {m : Machine} {e : TraceEvent} :
      (∀ x, e.unit? = some x → .unit x ∈ X) → Moves X m X { m with trace := m.trace ++ [e] }
  | heap {X : List Holding} {m : Machine} {heap : Heap} {addressLimit : Nat} :
      m.host.heap.LaidStep m.host.addressLimit heap addressLimit →
      Moves X m X (m.withHost { m.host with heap, addressLimit })
  | pin {X : List Holding} {m : Machine} {r : ObjRef} {g : Guard} {heap : Heap} :
      m.host.heap.pin r = .ok (g, heap) →
      Moves X m (.guard g :: X) (m.withHost { m.host with heap })
  | unpin {X : List Holding} {m : Machine} {g : Guard} :
      Moves (.guard g :: X) m X (m.withHost { m.host with heap := m.host.heap.unpin g })
  | name {X : List Holding} {m : Machine} {l : Label} {g : Guard} :
      Moves (.guard g :: X) m (ofGuards (m.host.guards.get? l).toList ++ X)
        (m.withHost { m.host with guards := m.host.guards.set l g })
  | unname {X : List Holding} {m : Machine} {l : Label} {g : Guard} :
      m.host.guards.get? l = some g →
      Moves X m (.guard g :: X) (m.withHost { m.host with guards := m.host.guards.erase l })
  | unnameAll {X : List Holding} {m : Machine} :
      Moves X m (ofGuards (m.host.guards.map (·.2)) ++ X) (m.withHost { m.host with guards := [] })
  | callback {X : List Holding} {m : Machine} {c : Callback} {reply : CallbackReply} {host : Host}
      {waiting : List Host} :
      answerInnermost c (m.host :: m.waiting) = some (reply, host :: waiting) →
      Moves X m X { m with host, waiting }
  | hook {X Y : List Holding} {m m' : Machine} {s : Session} :
      Moves X (m.push s) Y m' → Moves X m Y m'.pop
  | nested {X : List Holding} {m m' : Machine} {p : Program} :
      Moves [] (m.enter p) [] m' → Moves X m X m'.leave
  | declare {X : List Holding} {m : Machine} :
      Moves X m (.unit m.nextHandle :: X) { m with nextHandle := m.nextHandle + 1 }
  | attach {X : List Holding} {m : Machine} {x : UnitHandle} {mod : UnitModule} : .unit x ∈ X →
      Moves X m X (m.withHost { m.host with
        modules := m.host.modules.set x mod, loaded := m.host.loaded.set x true })
  | release {X : List Holding} {m : Machine} {x : UnitHandle} : .unit x ∈ X →
      Moves X m X (m.withHost { m.host with
        modules := m.host.modules.erase x, loaded := m.host.loaded.set x false })
  | suspend {X : List Holding} {m : Machine} {r : Registry} :
      m.host.pending = none → m.host.Holds .activePending r →
      Moves (ofUnits r.handles ++ X) m X (m.withHost { m.host with pending := some r })
  | resume {X : List Holding} {m : Machine} {r : Registry} : m.host.pending = some r →
      Moves X m (ofUnits r.handles ++ X) (m.withHost { m.host with pending := none })
  | install {X : List Holding} {m : Machine} {r : Registry} :
      m.host.runtime = none → m.host.Holds .active r →
      Moves (ofUnits r.handles ++ X) m X (m.withHost (m.host.serve r))
  | retire {X : List Holding} {m : Machine} {r : Runtime} : m.host.runtime = some r →
      Moves X m (ofUnits r.registry.handles ++ X) (m.withHost { m.host with runtime := none })
  | bareUnit {X : List Holding} {m : Machine} {x : UnitHandle} {option : UnitOption}
      {bare : Registry} :
      m.host.modules.get? x = none → m.host.bare.register option x = .ok bare →
      Moves (.unit x :: X) m X (m.withHost { m.host with bare })
  | bareEntries {X : List Holding} {m : Machine} {bare : Registry} : m.host.bare.Extends bare →
      Moves X m X (m.withHost { m.host with bare })
  | expose {X : List Holding} {m : Machine} {published : Registry} :
      published = {} ∨ published = m.host.bare →
      Moves X m X (m.withHost (m.host.expose published))
  | provide {X : List Holding} {m : Machine} {id : EntryId} {answer : Option CodeRef} :
      m.host.provided.get? id = none →
      Moves X m X (m.withHost { m.host with provided := m.host.provided.set id answer })
  | cache {X : List Holding} {m : Machine} {s : Replacements} {method : Method} {e : Entry}
      {func : CodeRef} :
      m.host.replacements? = some s → s.published.find? method = some e →
      m.host.isLoaded e = true → m.host.native? e = some func →
      Moves X m X (m.withHost (m.host.modifyReplacements fun s =>
        { s with compiled := s.compiled.set method ⟨.ofEntry e func, .cached s.id method⟩ }))
  | discard {X : List Holding} {m : Machine} {x : UnitHandle} : m.host.modules.get? x = none →
      Moves (.unit x :: X) m X m

namespace Moves

open Holding

variable {X Y : List Holding} {m m' : Machine}

theorem refl (X : List Holding) (m : Machine) : Moves X m X m := .perm (.refl X)

theorem discardAll (xs : List UnitHandle) (h : ∀ x ∈ xs, m.host.modules.get? x = none) :
    Moves (ofUnits xs ++ X) m X m := by
  induction xs with
  | nil => exact .refl X m
  | cons x xs ih =>
    exact .trans (.discard (h x (by simp))) (ih fun y hy => h y (List.mem_cons_of_mem x hy))

end Moves

end AccelHost
