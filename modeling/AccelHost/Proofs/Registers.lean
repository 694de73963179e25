import AccelHost.Proofs.Marshalling

/-!
Registers that show arguments. A native function may leave an argument in its register with anything
above its bytes, and a primitive value is read back from its bytes alone. Where the argument of a
parameter stands depends on the parameters before it, since an array takes two places.
-/
namespace AccelHost

def lowBytes (n : Nat) (w : UInt64) : Nat := (w.toBitVec.setWidth (8 * n)).toNat

def NativeType.size : NativeType → Nat
  | void => 0
  | prim k => k.size
  | pointer => 8

/-- A register shows an argument in its low bytes, whatever is above them. -/
def NativeArg.ShownIn (a : NativeArg) (register : UInt64) : Prop :=
  lowBytes a.type.size register = lowBytes a.type.size a.toWord

instance (a : NativeArg) (register : UInt64) : Decidable (a.ShownIn register) :=
  inferInstanceAs (Decidable (_ = _))

/-! ### Words by their low bytes -/

section

variable {w w' : UInt64}

/-- Words with the same number in their low bytes have the same bits there. -/
theorem setWidth_of_lowBytes {n : Nat} (h : lowBytes n w = lowBytes n w') :
    w.toBitVec.setWidth (8 * n) = w'.toBitVec.setWidth (8 * n) :=
  BitVec.eq_of_toNat_eq h

theorem eq_of_lowBytes (h : lowBytes 8 w = lowBytes 8 w') : w = w' := by
  apply UInt64.toBitVec_inj.1
  simpa using setWidth_of_lowBytes h

/-- The value that a word shows is in its low bytes. -/
theorem ElemKind.ofWord_of_lowBytes (k : ElemKind) (h : lowBytes k.size w = lowBytes k.size w') :
    k.ofWord w = k.ofWord w' := by
  have hbits := setWidth_of_lowBytes h
  cases k with
  | boolean | byte =>
    have hlow : w.toUInt8 = w'.toUInt8 := UInt8.toBitVec_inj.1 (by simpa [size] using hbits)
    simp only [ofWord, hlow]
  | char | short =>
    have hlow : w.toUInt16 = w'.toUInt16 := UInt16.toBitVec_inj.1 (by simpa [size] using hbits)
    simp only [ofWord, hlow]
  | int | float =>
    have hlow : w.toUInt32 = w'.toUInt32 := UInt32.toBitVec_inj.1 (by simpa [size] using hbits)
    simp only [ofWord, hlow]
  | long | double => rw [eq_of_lowBytes h]

end

theorem NativeArg.ShownIn.ofWord {k : ElemKind} {v : k.Val} {register : UInt64}
    (h : (NativeArg.prim k v).ShownIn register) : k.ofWord register = v := by
  rw [k.ofWord_of_lowBytes h]
  exact k.ofWord_widen v

/-- A register shows a pointer only if it is that pointer. -/
theorem NativeArg.ShownIn.eq {address register : UInt64}
    (h : (NativeArg.pointer address).ShownIn register) : register = address :=
  eq_of_lowBytes h

/-! ### Places -/

def Convention.place (c : Convention) (i : Nat) : Nat :=
  ((c.nativeParams.take i).flatMap NativeType.ofParam).length

/-- What a value crosses over as stands at the place of its parameter. -/
theorem Heap.exists_crossing {h : Heap} {kinds : List ParamKind} {values : List Value}
    {parts : List (List NativeArg)}
    (hparts : List.Forall₂ (fun kv as => h.Crosses kv.1 kv.2 as) (kinds.zip values) parts)
    {i : Nat} {kind : ParamKind} {v : Value} (hk : kinds[i]? = some kind)
    (hv : values[i]? = some v) :
    ∃ a as, h.Crosses kind v (a :: as) ∧
      parts.flatten[((kinds.take i).flatMap NativeType.ofParam).length]? = some a := by
  induction kinds generalizing values parts i with
  | nil => simp at hk
  | cons k kinds ih =>
    cases values with
    | nil => simp at hv
    | cons w values =>
      cases hparts with
      | @cons _ part _ parts hw hrest =>
        cases i with
        | zero =>
          simp only [List.getElem?_cons_zero, Option.some.injEq] at hk hv
          subst hk hv
          have hpart : ∃ a as, part = a :: as := by cases hw <;> exact ⟨_, _, rfl⟩
          obtain ⟨a, as, rfl⟩ := hpart
          exact ⟨a, as, hw, rfl⟩
        | succ i =>
          rw [List.getElem?_cons_succ] at hk hv
          obtain ⟨a, as, hcross, ha⟩ := ih hrest hk hv
          refine ⟨a, as, hcross, ?_⟩
          -- The parts before it are as long as the types of their parameters.
          have hlen : (NativeType.ofParam k).length = part.length := by
            rw [← hw.types, List.length_map]
          rw [List.take_succ_cons, List.flatMap_cons, List.length_append, hlen, List.flatten_cons,
            List.getElem?_append_right (Nat.le_add_right _ _), Nat.add_sub_cancel_left]
          exact ha

end AccelHost
