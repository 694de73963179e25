import AccelHost.Proofs.Pinning
import AccelHost.Proofs.Whereabouts

/-!
Native code that keeps to its arguments. It reads and writes memory through pointers that it was
handed, at offsets within the blocks that they lead to, and returns a number that it computed, null,
or one of its pointers with an offset. Where collections are marked in it, it may have them carried
out or not.
-/
namespace AccelHost

/-- An argument but for where it points: a pointer is null or is not. -/
def NativeArg.unplaced : NativeArg → NativeArg
  | .prim k v => .prim k v
  | .pointer a => .pointer (if a = 0 then 0 else 1)

/-- What a native function returns: a number, null, or an argument moved by an offset. -/
inductive NativeResult where
  | word (w : UInt64)
  | null
  | pointer (arg offset : Nat)

def pointerAt (args : List NativeArg) (arg offset : Nat) : UInt64 :=
  ((args[arg]?.bind NativeArg.address?).getD 0) + UInt64.ofNat offset

def NativeResult.register (args : List NativeArg) : NativeResult → UInt64
  | word w => w
  | null => 0
  | pointer arg offset => pointerAt args arg offset

def ActionReply.loaded : ActionReply → UInt64
  | .word (some w) => w
  | _ => 0

/-- Code that goes through the pointers among its arguments, with places where it collects. -/
inductive Body (ρ : Type) where
  | done (result : ρ)
  | load (arg offset width : Nat) (next : UInt64 → Body ρ)
  | store (arg offset width : Nat) (value : UInt64) (next : Body ρ)
  | note (e : Event) (next : Body ρ)
  | collect (next : Body ρ)

/-- Some bytes, from an offset on, lie in the block that begins at an address. -/
def Heap.Spans (h : Heap) (address : UInt64) (offset width : Nat) : Prop :=
  ∃ r c, h.cell? r = some c ∧ UInt64.ofNat c.base = address ∧
    offset < c.block.size ∧ offset + width ≤ c.block.size

/-- Some bytes lie in the block that an argument leads to. -/
def Heap.Leads (h : Heap) (args : List NativeArg) (arg offset width : Nat) : Prop :=
  ∃ a, args[arg]? = some (.pointer a) ∧ h.Spans a offset width

theorem Heap.Leads.ne_nil {h : Heap} {args : List NativeArg} {arg offset width : Nat}
    (hl : h.Leads args arg offset width) : args ≠ [] := by
  rintro rfl
  obtain ⟨a, ha, _⟩ := hl
  simp at ha

instance Heap.decidableSpans (h : Heap) (address : UInt64) (offset width : Nat) :
    Decidable (h.Spans address offset width) :=
  decidable_of_iff
    (∃ s ∈ h.slots, ∃ c ∈ s.cell, UInt64.ofNat c.base = address ∧
      offset < c.block.size ∧ offset + width ≤ c.block.size) <| by
    constructor
    · rintro ⟨s, hs, c, hc, hspan⟩
      obtain ⟨i, hi⟩ := List.mem_iff_getElem?.1 hs
      exact ⟨⟨i, s.generation⟩, c, by simpa [cell?, hi] using hc, hspan⟩
    · rintro ⟨r, c, hc, hspan⟩
      obtain ⟨s, hs, _, hcell⟩ := cell?_eq_some_iff.1 hc
      exact ⟨s, List.mem_of_getElem? hs, c, hcell, hspan⟩

instance Heap.decidableLeads (h : Heap) (args : List NativeArg) (arg offset width : Nat) :
    Decidable (h.Leads args arg offset width) :=
  match ha : args[arg]? with
  | some (.pointer a) => decidable_of_iff (h.Spans a offset width) (by simp [Leads, ha])
  | some (.prim ..) => isFalse (by simp [Leads, ha])
  | none => isFalse (by simp [Leads, ha])

namespace Body

variable {ρ α : Type}

/-- The code of a body, with its collections or without. -/
def code (collects : Bool) (args : List NativeArg) (finish : ρ → α) : Body ρ → Behaviour α
  | done r => .done (finish r)
  | load arg offset width next =>
    .ask (.load (pointerAt args arg offset) width) fun reply =>
      (next reply.loaded).code collects args finish
  | store arg offset width value next =>
    .ask (.store (pointerAt args arg offset) width value) fun _ => next.code collects args finish
  | note e next => .ask (.note e) fun _ => next.code collects args finish
  | collect next =>
    if collects then .ask (.step (.heap .relocate)) fun _ => next.code collects args finish
    else next.code collects args finish

/-- In a heap, a body reaches only bytes of the blocks that its arguments lead to, and its result is
in order when it ends. -/
def Confined (args : List NativeArg) (fits : ρ → Heap → Prop) : Body ρ → Heap → Prop
  | done r, h => fits r h
  | load arg offset width next, h => h.Leads args arg offset width ∧
      ∀ w ∈ h.load? (pointerAt args arg offset).toNat width, (next w).Confined args fits h
  | store arg offset width value next, h => h.Leads args arg offset width ∧
      ∀ h' ∈ h.store? (pointerAt args arg offset).toNat width value, next.Confined args fits h'
  | note _ next, h => next.Confined args fits h
  | collect next, h => next.Confined args fits h

instance decidableConfined (args : List NativeArg) (fits : ρ → Heap → Prop)
    [∀ r h, Decidable (fits r h)] : (body : Body ρ) → (h : Heap) →
      Decidable (body.Confined args fits h)
  | done r, h => inferInstanceAs (Decidable (fits r h))
  | load arg offset width next, h =>
    have (w : UInt64) := decidableConfined args fits (next w) h
    -- Decided by the number that was loaded; there are too many to try them all.
    have : Decidable (∀ w ∈ h.load? (pointerAt args arg offset).toNat width,
        (next w).Confined args fits h) := Option.decidableForallMem _
    inferInstanceAs (Decidable (h.Leads args arg offset width ∧
      ∀ w ∈ h.load? (pointerAt args arg offset).toNat width, (next w).Confined args fits h))
  | store arg offset width value next, h =>
    have (h' : Heap) := decidableConfined args fits next h'
    inferInstanceAs (Decidable (h.Leads args arg offset width ∧
      ∀ h' ∈ h.store? (pointerAt args arg offset).toNat width value, next.Confined args fits h'))
  | note _ next, h => decidableConfined args fits next h
  | collect next, h => decidableConfined args fits next h

end Body

/-- A number is returned where a number is expected, and a pointer only where none is. -/
def NativeResult.Fits (args : List NativeArg) (type : NativeType) : NativeResult → Heap → Prop
  | word _, _ => type ≠ .pointer
  | null, _ => True
  | pointer arg offset, h => (∀ k, type ≠ .prim k) ∧ h.Leads args arg offset 0

instance NativeResult.decidableFits (args : List NativeArg) (type : NativeType)
    (result : NativeResult) (h : Heap) : Decidable (result.Fits args type h) :=
  match result, type with
  | word _, type => inferInstanceAs (Decidable (type ≠ .pointer))
  | null, _ => isTrue trivial
  | pointer .., .prim k => isFalse fun hf => hf.1 k rfl
  | pointer arg offset, .void | pointer arg offset, .pointer =>
    decidable_of_iff (h.Leads args arg offset 0) (by simp [Fits])

/-- The bodies of native functions and of providers. What they do does not depend on where their
arguments point. -/
structure Bodies where
  native : CodeRef → Option (List NativeArg → Body NativeResult)
  provider : CodeRef → Option (String → Option CodeRef → Body (Option CodeRef))

namespace Bodies

variable (b : Bodies)

def natives (collects : Bool) (func : CodeRef) : Option (List NativeArg → Behaviour UInt64) :=
  (b.native func).map fun body args =>
    (body (args.map NativeArg.unplaced)).code collects args (·.register args)

/-- The code of the providers, which have no arguments to go through. -/
def providers (collects : Bool) (func : CodeRef) :
    Option (String → Option CodeRef → Behaviour (Option CodeRef)) :=
  (b.provider func).map fun body name data => (body name data).code collects [] id

def Blind : Prop := ∀ func body, b.provider func = some body →
  ∀ name data h, (body name data).Confined [] (fun _ _ => True) h

end Bodies

/-- A machine whose host has native code with collections in it, or without. -/
def Machine.equipped (m : Machine) (b : Bodies) (collects : Bool) : Machine :=
  m.withHost { m.host with native := b.natives collects, provider := b.providers collects }

/-- The body of a native function is confined, with what it is handed. -/
def Marshalled.Confines (s : Marshalled) (result : NativeType)
    (body : List NativeArg → Body NativeResult) : Prop :=
  (body (s.args.map NativeArg.unplaced)).Confined s.args (·.Fits s.args result) s.heap

instance Marshalled.decidableConfines (s : Marshalled) (result : NativeType)
    (body : List NativeArg → Body NativeResult) : Decidable (s.Confines result body) :=
  inferInstanceAs (Decidable (Body.Confined ..))

/-- The native function of a call is confined when it is entered. -/
def CallPlan.Confined (p : CallPlan) (b : Bodies) (m : Machine) (args : List Value) : Prop :=
  ∀ s code m₁, p.Enters args m s code m₁ → ∀ body ∈ b.native p.func, s.Confines p.result body

/-- The call that an operation makes, if it makes one, is confined. -/
def Op.Confined (n : Nested) (b : Bodies) (m : Machine) (op : Op) : Prop :=
  ∀ dispatch p values m₁, op = .dispatch dispatch →
    dispatch.Calls n { m with journal := [] } p values m₁ → p.Confined b m₁ values

/-- Operations one after another, all of them confined. -/
def Nested.Confines (n : Nested) (b : Bodies) : List Op → Machine → Prop
  | [], _ => True
  | op :: ops, m => op.Confined n b m ∧ n.Confines b ops ((op.answer n).after m)

end AccelHost
