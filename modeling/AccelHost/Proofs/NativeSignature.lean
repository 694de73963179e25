import AccelHost.Proofs.DescriptorGrammar
import AccelHost.Proofs.ExportTables
import AccelHost.Proofs.RejectedCalls

/-!
Native signatures, read off descriptors. The text of a descriptor alone tells what crosses over for
each field and for the result; the entry that is checked against it adds nothing but whether there
is a receiver. So entries with one descriptor are called alike, up to the receiver.
-/
namespace AccelHost

/-! ### What a text tells -/

def ElemKind.reading : ElemKind → String
  | boolean | char => "u"
  | byte | short | int | long => "i"
  | float | double => "f"

theorem NativeType.text_prim (k : ElemKind) :
    (NativeType.prim k).text = k.reading ++ toString (8 * k.size) := by
  cases k <;> decide

namespace FieldType

/-- What crosses over for a field: a number for a primitive, its address and a length for an array
of primitives, and else one address. -/
def slots (f : FieldType) : List NativeType :=
  match f.dimensions, f.base with
  | 0, .prim k => [.prim k]
  | 1, .prim _ => [.pointer, .prim .int]
  | _, _ => [.pointer]

/-- What crosses back for a field. Of an array there is only its address. -/
def resultSlot (f : FieldType) : NativeType :=
  match f.dimensions, f.base with
  | 0, .prim k => .prim k
  | _, _ => .pointer

theorem ofParam_kind (f : FieldType) : NativeType.ofParam f.kind = f.slots := by
  obtain ⟨n, b, hn⟩ := f
  rcases n with _ | _ | n <;> cases b <;> rfl

theorem ofResult_kind (f : FieldType) : NativeType.ofResult f.kind = f.resultSlot := by
  obtain ⟨n, b, hn⟩ := f
  rcases n with _ | _ | n <;> cases b <;> rfl

end FieldType

namespace MethodType

variable (t : MethodType)

/-- The native parameters of a method, with the address of a receiver before those of its fields. -/
def slots (hasReceiver : Bool) : List NativeType :=
  (if hasReceiver then [.pointer] else []) ++ t.params.flatMap FieldType.slots

def resultSlot : NativeType :=
  match t.result with
  | none => .void
  | some f => f.resultSlot

def arity (hasReceiver : Bool) : Nat := t.params.length + if hasReceiver then 1 else 0

theorem ofResult_resultKind : NativeType.ofResult (resultKind t.result) = t.resultSlot := by
  unfold resultSlot
  cases t.result with
  | none => rfl
  | some f => exact f.ofResult_kind

end MethodType

/-! ### What a convention tells -/

namespace Convention

variable {c : Convention} {t : MethodType}

def Of (c : Convention) (t : MethodType) : Prop :=
  c.params = t.params.map FieldType.kind ∧ c.result = MethodType.resultKind t.result

theorem Of.nativeTypes_eq (h : c.Of t) : c.nativeTypes = t.slots c.hasReceiver := by
  have hfields : (t.params.map FieldType.kind).flatMap NativeType.ofParam =
      t.params.flatMap FieldType.slots := by
    rw [List.flatMap_map]
    exact congrArg (List.flatMap · t.params) (funext FieldType.ofParam_kind)
  rw [nativeTypes, nativeParams, MethodType.slots, h.1]
  cases c.hasReceiver with
  | true =>
    rw [if_pos rfl, if_pos rfl, List.flatMap_cons, hfields]
    rfl
  | false =>
    rw [if_neg Bool.false_ne_true, if_neg Bool.false_ne_true, hfields]
    rfl

theorem Of.ofResult_eq (h : c.Of t) : NativeType.ofResult c.result = t.resultSlot := by
  rw [h.2, t.ofResult_resultKind]

theorem Of.argCount_eq (h : c.Of t) : c.argCount = t.arity c.hasReceiver := by
  rw [argCount, MethodType.arity, h.1, List.length_map]

/-- Conventions of one method type differ in nothing but the receiver. -/
theorem Of.eq_upto_receiver {c' : Convention} (h : c.Of t) (h' : c'.Of t) :
    c' = { c with hasReceiver := c'.hasReceiver } := by
  obtain ⟨hasReceiver, params, result⟩ := c
  obtain ⟨hasReceiver', params', result'⟩ := c'
  obtain ⟨rfl, rfl⟩ := h
  obtain ⟨rfl, rfl⟩ := h'
  rfl

end Convention

/-- The descriptor of an entry that passes is the text of one method type, and its convention is of
that type. -/
theorem RawEntry.Decodes.exists_methodType {raw : RawEntry} {unit : String} {e : Entry}
    (h : raw.Decodes unit e) :
    ∃ t : MethodType, (∀ t' : MethodType, t'.text = e.method.descriptor.toList ↔ t' = t) ∧
      e.convention.Of t := by
  obtain ⟨d, hparse, hparams, hresult⟩ := h.fits
  obtain ⟨t, ht, rfl⟩ := Descriptor.parse_eq_ok_iff.1 hparse
  refine ⟨t, fun t' => ?_, hparams, hresult⟩
  constructor
  · intro ht'
    exact Descriptor.text_injective (ht'.trans ht.symm)
  · rintro rfl
    exact ht

/-! ### What a plan tells -/

namespace Dispatch

variable {n : Nested} {m : Machine} {e : Entry} {args : List Value}

theorem ne_arityMismatch_of_argumentFault? {h : Heap} {method method' : Method} {index : Nat}
    {kind : ParamKind} {v : Value} {err : DispatchError}
    (he : h.argumentFault? method index kind v = some err) (expected found : Nat) :
    err ≠ .arityMismatch method' expected found := by
  rintro rfl
  unfold Heap.argumentFault? at he
  dsimp only at he
  split at he
  all_goals try split at he
  all_goals simp at he

theorem call_ne_arityMismatch {func : CodeRef} (n : Nested) (hl : m.host.isLoaded e = true)
    (hcount : args.length = e.convention.argCount) (method : Method) (expected found : Nat) :
    (call n (.ofEntry e func) args).result m ≠ .error (.arityMismatch method expected found) := by
  intro hresult
  cases hs : (CallPlan.ofEntry e func).marshal m.host.heap args with
  | mk error s =>
    cases error with
    | some err =>
      have herr := (call_of_refused n hl hcount hs).1.symm.trans hresult
      have hfirst : (m.host.heap.argumentFaults e.method 0 e.convention.nativeParams args).head? =
          some err := by
        have hmarshal := congrArg Prod.fst hs
        rw [CallPlan.marshal, Marshalled.addAll_fst] at hmarshal
        exact hmarshal
      obtain ⟨⟨⟨kind, v⟩, i⟩, -, hfault⟩ := List.mem_filterMap.1 (List.mem_of_mem_head? hfirst)
      exact ne_arityMismatch_of_argumentFault? hfault expected found (Except.error.inj herr)
    | none =>
      have hvalue := (call_of_handed n hl hcount hs).1.symm.trans hresult
      cases (CallPlan.ofResult_of_value hvalue).1

/-- What the plan of an entry has to do with the method type of its descriptor. -/
structure Signature (p : CallPlan) (t : MethodType) (hasReceiver : Bool) : Prop where
  params : p.params = t.slots hasReceiver
  result : p.result = t.resultSlot
  /-- A call gives a value for each field, and one for the receiver. -/
  arity : ∀ (n : Nested) (m : Machine) (args : List Value), m.host.isLoaded p.entry = true →
    (args.length ≠ t.arity hasReceiver → (call n p args).result m =
      .error (.arityMismatch p.entry.method (t.arity hasReceiver) args.length)) ∧
    (args.length = t.arity hasReceiver → ∀ method expected found,
      (call n p args).result m ≠ .error (.arityMismatch method expected found))

theorem signature_ofEntry {t : MethodType} (h : e.convention.Of t) (func : CodeRef) :
    Signature (.ofEntry e func) t e.convention.hasReceiver where
  params := h.nativeTypes_eq
  result := h.ofResult_eq
  arity n m args hl := by
    rw [← h.argCount_eq]
    exact ⟨fun hcount => (call_of_arity (p := .ofEntry e func) n hl hcount).1,
      fun hcount => call_ne_arityMismatch n hl hcount⟩

theorem exists_lower_iff :
    (∃ p, (lower n e).result m = .ok p) ↔
      m.host.isLoaded e = true ∧ ∃ func, (nativeFunc n e).result m = some func := by
  rw [result_lower]
  cases m.host.isLoaded e with
  | false => simp
  | true => cases (nativeFunc n e).result m <;> simp

end Dispatch

open Dispatch in
/-- The descriptor of an entry that passes the check is the text of one method type. Whoever owns
the entry, it is lowered once its unit is loaded and its function known, and then its native
signature is that of the type. Entries with one descriptor have one signature up to the receiver,
and a primitive crosses over as the number of its width, signed if it is. -/
theorem native_signature_of_descriptor :
    (∀ (raw : RawEntry) (unit : String) (e : Entry), raw.check unit = .ok e →
      ∃ t : MethodType, (∀ t' : MethodType, t'.text = e.method.descriptor.toList ↔ t' = t) ∧
        ∀ (owner : Option UnitHandle) (serial : Nat) (n : Nested) (m : Machine),
          let e₁ : Entry := { e with owner, serial }
          ((∃ p, (lower n e₁).result m = .ok p) ↔
            m.host.isLoaded e₁ = true ∧ ∃ func, (nativeFunc n e₁).result m = some func) ∧
          ∀ p, (lower n e₁).result m = .ok p → Signature p t e.convention.hasReceiver) ∧
    (∀ (raw raw' : RawEntry) (unit unit' : String) (e e' : Entry),
      raw.check unit = .ok e → raw'.check unit' = .ok e' →
      e.method.descriptor = e'.method.descriptor →
      e'.convention = { e.convention with hasReceiver := e'.convention.hasReceiver }) ∧
    ∀ k : ElemKind, (NativeType.prim k).text = k.reading ++ toString (8 * k.size) := by
  refine ⟨fun raw unit e hcheck => ?_, fun raw raw' unit unit' e e' hcheck hcheck' hsame => ?_,
    NativeType.text_prim⟩
  · obtain ⟨t, htext, hof⟩ := (RawEntry.check_eq_ok_iff.1 hcheck).exists_methodType
    refine ⟨t, htext, fun owner serial n m => ⟨exists_lower_iff, fun p hp => ?_⟩⟩
    obtain ⟨-, func, rfl, -⟩ := eq_ofEntry_of_lower hp
    exact signature_ofEntry (e := { e with owner, serial }) hof func
  · obtain ⟨t, htext, hof⟩ := (RawEntry.check_eq_ok_iff.1 hcheck).exists_methodType
    obtain ⟨t', htext', hof'⟩ := (RawEntry.check_eq_ok_iff.1 hcheck').exists_methodType
    obtain rfl : t' = t := (htext t').1 (hsame ▸ (htext' t').2 rfl)
    exact hof.eq_upto_receiver hof'

/-- A receiver comes first, an array brings its length, and arrays of arrays are plain addresses. -/
example :
    let raw : RawEntry := ⟨.ofString "a.B", .ofString "f", .ofString "(C[B[[JLx/Y;)Z",
      .ofString "b_f", some ⟨none, "b_f"⟩, some [10, 3, 18, 9, 9, 1], 6, none⟩
    (raw.check "fast").map (fun e => e.convention.nativeTypes.map NativeType.text) =
      .ok ["pointer", "u16", "pointer", "i32", "pointer", "pointer"] := by
  decide +kernel

end AccelHost
