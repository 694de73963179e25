import AccelHost.Proofs.HeapRuns
import AccelHost.Proofs.Storage

/-!
A store without addresses. It keeps, by reference, the kind of every object and the list of what is
in it, and answers the same requests as a heap: blocks, the addresses that an allocator gives, and
the map from addresses to slots have no part in it.
-/
namespace AccelHost

/-- What an object holds, element by element. -/
inductive Content where
  | fields (className : String) (slots : List Int64)
  | elements (k : ElemKind) (values : List k.Val)

namespace Content

def kind : Content → ObjectKind
  | fields className _ => .ofClass className
  | elements k _ => .array k

/-- The kind of the elements. A field slot is a `long`. -/
def elemKind : Content → ElemKind
  | fields .. => .long
  | elements k _ => k

def values : (x : Content) → List x.elemKind.Val
  | fields _ slots => slots
  | elements _ values => values

def array? (k : ElemKind) : Content → Option (List k.Val)
  | fields .. => none
  | elements k' values => if h : k' = k then some (h ▸ values) else none

end Content

namespace Store

/-- An object, and how often it is pinned. -/
structure Item where
  content : Content
  pins : UInt32 := 0

end Store

/-- Objects by reference, and the references that come next. -/
structure Store where
  items : Keyed ObjRef Store.Item := []
  /-- References to be given out again, the last freed first, each in its next generation. -/
  ready : List ObjRef := []
  /-- How many references there are but for their generations. -/
  issued : Nat := 0

namespace Store

open HeapRequest (ask change)

variable (s : Store)

def next : ObjRef := s.ready.headD ⟨s.issued, 0⟩

def insert (content : Content) : Store :=
  { items := s.items.set s.next { content }
    ready := s.ready.tail
    issued := if s.ready = [] then s.issued + 1 else s.issued }

def put (r : ObjRef) (x : Item) : Store := { s with items := s.items.set r x }

/-- Takes an object out. Its reference is given out again in the next generation. -/
def remove (r : ObjRef) : Store :=
  { s with items := s.items.erase r, ready := ⟨r.index, r.generation + 1⟩ :: s.ready }

def get (r : ObjRef) : Except DispatchError Item :=
  match s.items.get? r with
  | some x => .ok x
  | none => .error (.invalidReference r)

def free (r : ObjRef) : Except DispatchError Store :=
  match s.get r with
  | .error e => .error e
  | .ok x => if 0 < x.pins then .error (.stillPinned r) else .ok (s.remove r)

def arrayLength (r : ObjRef) : Except DispatchError Nat :=
  match s.get r with
  | .error e => .error e
  | .ok x =>
    match x.content with
    | .elements _ values => .ok values.length
    | .fields className _ => .error (.wrongKind r .array (.ofClass className))

def readArray (k : ElemKind) (r : ObjRef) : Except DispatchError (List k.Val) :=
  match s.get r with
  | .error e => .error e
  | .ok x =>
    match x.content.array? k with
    | some values => .ok values
    | none => .error (.wrongKind r (.arrayOf k) x.content.kind)

/-- New values take the place of as many at the start. -/
def writeArray (k : ElemKind) (r : ObjRef) (new : List k.Val) : Except DispatchError Store :=
  match s.get r with
  | .error e => .error e
  | .ok x =>
    match x.content.array? k with
    | some values =>
      if values.length < new.length then .error (.shortArray r new.length values.length)
      else .ok (s.put r { x with content := .elements k (new ++ values.drop new.length) })
    | none => .error (.wrongKind r (.arrayOf k) x.content.kind)

def readField (r : ObjRef) (index : Nat) : Except DispatchError Int64 :=
  match s.get r with
  | .error e => .error e
  | .ok x =>
    match x.content with
    | .fields _ slots =>
      match slots[index]? with
      | some value => .ok value
      | none => .error (.noField r index slots.length)
    | .elements k _ => .error (.wrongKind r .fields (.array k))

def writeField (r : ObjRef) (index : Nat) (value : Int64) : Except DispatchError Store :=
  match s.get r with
  | .error e => .error e
  | .ok x =>
    match x.content with
    | .fields className slots =>
      if index < slots.length then
        .ok (s.put r { x with content := .fields className (slots.set index value) })
      else .error (.noField r index slots.length)
    | .elements k _ => .error (.wrongKind r .fields (.array k))

def unpin (r : ObjRef) : Store :=
  match s.items.get? r with
  | some x => s.put r { x with pins := if x.pins = 0 then 0 else x.pins - 1 }
  | none => s

/-- Answers a request. Where something is laid, moved or written in memory is not looked at. -/
def perform : HeapRequest → HeapReply × Store
  | .newObject className fields _ =>
    (.ok (.allocated s.next), s.insert (.fields className (List.replicate fields 0)))
  | .newArray k length _ =>
    (.ok (.allocated s.next), s.insert (.elements k (List.replicate length k.zero)))
  | .newArrayFrom k values _ => (.ok (.allocated s.next), s.insert (.elements k values))
  | .free r => change s (s.free r)
  | .kind r => ask s (s.get r) fun x => .kind x.content.kind
  | .arrayLength r => ask s (s.arrayLength r) .count
  | .readArray k r => ask s (s.readArray k r) (.elements k)
  | .writeArray k r values => change s (s.writeArray k r values)
  | .readField r index => ask s (s.readField r index) .field
  | .writeField r index value => change s (s.writeField r index value)
  | .pin r =>
    match s.get r with
    | .ok x => (.ok (.pinned r x.content.values.length), s.put r { x with pins := x.pins + 1 })
    | .error e => (.error e, s)
  | .unpin g => (.ok .done, s.unpin g.ref)
  | .relocate _ => (.ok (.moved (s.items.countP fun e => e.2.pins = 0)), s)
  | .poke .. => (.ok .done, s)

def run (qs : List HeapRequest) : List HeapReply × Store := HeapRequest.run perform s qs

end Store

/-- The reference whose object a request is to change. -/
def HeapRequest.changes? : HeapRequest → Option ObjRef
  | free r | writeArray _ r _ | writeField r _ _ => some r
  | _ => none

namespace Store

variable {s : Store} {r : ObjRef} {x : Item}

theorem content_put {r' : ObjRef} {y : Item} (hx : s.items.get? r = some x)
    (hy : r' = r → y.content = x.content) :
    ((s.put r' y).items.get? r).map (·.content) = some x.content := by
  by_cases hr : r' = r
  · subst hr
    simp [put, Keyed.get?_set_self, hy rfl]
  · simp [put, Keyed.get?_set_of_ne hr, hx]

theorem get_eq_ok_iff : s.get r = .ok x ↔ s.items.get? r = some x := by
  unfold get
  cases s.items.get? r <;> simp

theorem content_insert (hnext : s.items.get? s.next = none) (hx : s.items.get? r = some x)
    (content : Content) : ((s.insert content).items.get? r).map (·.content) = some x.content := by
  have hne : s.next ≠ r := by
    rintro rfl
    rw [hx] at hnext
    cases hnext
  simp [insert, Keyed.get?_set_of_ne hne, hx]

theorem content_change {x' : Except DispatchError Store} (hx : s.items.get? r = some x)
    (h : ∀ s', x' = .ok s' → (s'.items.get? r).map (·.content) = some x.content) :
    ((HeapRequest.change s x').2.items.get? r).map (·.content) = some x.content := by
  cases x' with
  | ok s' => exact h s' rfl
  | error e => simp [HeapRequest.change, hx]

theorem eq_remove_of_free {s' : Store} (h : s.free r = .ok s') : s' = s.remove r := by
  unfold free at h
  split at h
  · cases h
  · split at h
    · cases h
    · exact (Except.ok.inj h).symm

theorem exists_of_writeArray {k : ElemKind} {new : List k.Val} {s' : Store}
    (h : s.writeArray k r new = .ok s') : ∃ y, s' = s.put r y := by
  unfold writeArray at h
  split at h
  · cases h
  · split at h
    · split at h
      · cases h
      · exact ⟨_, (Except.ok.inj h).symm⟩
    · cases h

theorem exists_of_writeField {index : Nat} {value : Int64} {s' : Store}
    (h : s.writeField r index value = .ok s') : ∃ y, s' = s.put r y := by
  unfold writeField at h
  split at h
  · cases h
  · split at h
    · split at h
      · exact ⟨_, (Except.ok.inj h).symm⟩
      · cases h
    · cases h

theorem content_perform (hnext : s.items.get? s.next = none) (hx : s.items.get? r = some x)
    {q : HeapRequest} (hq : q.changes? ≠ some r) :
    ((s.perform q).2.items.get? r).map (·.content) = some x.content := by
  have hsame : (s.items.get? r).map (·.content) = some x.content := by simp [hx]
  cases q with
  | newObject | newArray | newArrayFrom => exact content_insert hnext hx _
  | kind | arrayLength | readArray | readField | relocate | poke => exact hsame
  | pin r' =>
    simp only [perform]
    cases hg : s.get r' with
    | error e => exact hsame
    | ok y =>
      refine content_put hx fun hr => ?_
      subst hr
      rw [get_eq_ok_iff, hx] at hg
      cases hg
      rfl
  | unpin g =>
    simp only [perform, unpin]
    cases hg : s.items.get? g.ref with
    | none => exact hsame
    | some y =>
      refine content_put hx fun hr => ?_
      rw [hr, hx] at hg
      cases hg
      rfl
  -- What is changed is what another reference holds.
  | free r' =>
    have hr : r' ≠ r := fun hr => hq (congrArg some hr)
    refine content_change hx fun s' hs' => ?_
    rw [eq_remove_of_free hs']
    simp [remove, Keyed.get?_erase_of_ne hr, hx]
  | writeArray k r' new =>
    have hr : r' ≠ r := fun hr => hq (congrArg some hr)
    refine content_change hx fun s' hs' => ?_
    obtain ⟨y, rfl⟩ := exists_of_writeArray hs'
    exact content_put hx fun he => absurd he hr
  | writeField r' index value =>
    have hr : r' ≠ r := fun hr => hq (congrArg some hr)
    refine content_change hx fun s' hs' => ?_
    obtain ⟨y, rfl⟩ := exists_of_writeField hs'
    exact content_put hx fun he => absurd he hr

end Store

end AccelHost
