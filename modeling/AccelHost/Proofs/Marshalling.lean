import AccelHost.Proofs.DispatchMoves

/-!
What a native function is handed agrees with the native types that its entry was lowered to. Both
are read off the kinds of the parameters, one by cases on the kind and the other by cases on the
kind and the value; an array takes two native arguments, and the receiver is no parameter.
-/
namespace AccelHost

/-- How a value crosses over for a parameter: the native arguments that stand for it, where
references are looked up in a heap. -/
inductive Heap.Crosses (h : Heap) : ParamKind → Value → List NativeArg → Prop where
  | prim {k : ElemKind} {v : k.Val} : Crosses h (.prim k) (.prim k v) [.prim k v]
  | null : Crosses h .object (.ref none) [.pointer 0]
  | receiver {r : ObjRef} {c : Cell} : h.cell? r = some c →
      Crosses h .receiver (.ref (some r)) [.pointer (UInt64.ofNat c.base)]
  | object {r : ObjRef} {c : Cell} : h.cell? r = some c →
      Crosses h .object (.ref (some r)) [.pointer (UInt64.ofNat c.base)]
  | array {k : ElemKind} {r : ObjRef} {c : Cell} {length : Int32} : h.cell? r = some c →
      c.kind = .array k → length.toInt = c.length →
      Crosses h (.array k) (.ref (some r)) [.pointer (UInt64.ofNat c.base), .prim .int length]

/-- A number that was extended with its sign has its bits at the low end. -/
theorem setWidth_signExtend {n m : Nat} (h : n ≤ m) (v : BitVec n) :
    (v.signExtend m).setWidth n = v := by
  ext i hi
  simp only [BitVec.getElem_setWidth, BitVec.getLsbD_signExtend]
  simp [hi, Nat.lt_of_lt_of_le hi h]

/-- The word of a primitive argument shows the value in its low bytes. -/
theorem ElemKind.ofWord_widen (k : ElemKind) (v : k.Val) : k.ofWord (k.widen v) = v := by
  cases k
  case boolean => cases v <;> rfl
  case byte => simp [ofWord, widen, ← Int8.toBitVec_inj, setWidth_signExtend]
  case short => simp [ofWord, widen, ← Int16.toBitVec_inj, setWidth_signExtend]
  case int => simp [ofWord, widen, ← Int32.toBitVec_inj, setWidth_signExtend]
  all_goals simp [ofWord, widen, toWord]

namespace Cell

def unpinned (c : Cell) : Cell := { c with pins := 0 }

end Cell

namespace Heap

def SameUnpinned (h h' : Heap) : Prop :=
  ∀ r, (h'.cell? r).map Cell.unpinned = (h.cell? r).map Cell.unpinned

variable {h h' : Heap}

theorem SameUnpinned.symm (hs : h.SameUnpinned h') : h'.SameUnpinned h := fun r => (hs r).symm

theorem SameUnpinned.cell? {r : ObjRef} {c' : Cell} (hs : h.SameUnpinned h')
    (hc : h'.cell? r = some c') : ∃ c, h.cell? r = some c ∧
      c'.kind = c.kind ∧ c'.length = c.length ∧ c'.base = c.base ∧ c'.block = c.block := by
  have hr := hs r
  rw [hc] at hr
  obtain ⟨c, hc', he⟩ := Option.map_eq_some_iff.1 hr.symm
  simp only [Cell.unpinned, Cell.mk.injEq, and_true] at he
  obtain ⟨hkind, hlength, hblock, hbase⟩ := he
  exact ⟨c, hc', hkind.symm, hlength.symm, hbase.symm, hblock.symm⟩

theorem SameUnpinned.crosses {kind : ParamKind} {v : Value} {as : List NativeArg}
    (hs : h.SameUnpinned h') (hv : h'.Crosses kind v as) : h.Crosses kind v as := by
  cases hv with
  | prim => exact .prim
  | null => exact .null
  | receiver hc =>
    obtain ⟨c, hc', _, _, hb, _⟩ := hs.cell? hc
    exact hb ▸ .receiver hc'
  | object hc =>
    obtain ⟨c, hc', _, _, hb, _⟩ := hs.cell? hc
    exact hb ▸ .object hc'
  | array hc hk hl =>
    obtain ⟨c, hc', hk', hl', hb, _⟩ := hs.cell? hc
    exact hb ▸ .array hc' (hk' ▸ hk) (hl' ▸ hl)

theorem sameUnpinned_of_pin {r : ObjRef} {g : Guard} (hp : h.pin r = .ok (g, h')) :
    h.SameUnpinned h' ∧ ∃ c, h.cell? r = some c ∧ g = ⟨r, c.base, c.length⟩ := by
  obtain ⟨c, hc, rfl, rfl⟩ := exists_of_pin hp
  refine ⟨fun r' => ?_, c, hc, rfl⟩
  rw [cell?_addPin hc]
  by_cases hr : r' = r
  · simp [hr, hc, Cell.unpinned]
  · simp [hr]

theorem Crosses.types {kind : ParamKind} {v : Value} {as : List NativeArg}
    (hv : h.Crosses kind v as) : as.map NativeArg.type = NativeType.ofParam kind := by
  cases hv <;> rfl

end Heap

namespace Marshalled

variable {h : Heap} {s s' : Marshalled}

/-- From one stage of handing over arguments to another, some native arguments were added, and
nothing but pins is different in the heap. -/
structure Adds (s : Marshalled) (as : List NativeArg) (s' : Marshalled) : Prop where
  args : s'.args = s.args ++ as
  heap : s.heap.SameUnpinned s'.heap

theorem adds_push (s : Marshalled) (as : List NativeArg) : s.Adds as (s.push as) :=
  ⟨rfl, fun _ => rfl⟩

theorem adds_of_pin {r : ObjRef} {args : Guard → Option (List NativeArg)}
    {otherwise : DispatchError} (he : s.pin r args otherwise = (none, s')) :
    ∃ c as, s.heap.cell? r = some c ∧ args ⟨r, c.base, c.length⟩ = some as ∧ s.Adds as s' := by
  unfold Marshalled.pin at he
  split at he
  · cases he
  · rename_i g heap hp
    obtain ⟨hsame, c, hc, rfl⟩ := Heap.sameUnpinned_of_pin hp
    dsimp only at he
    split at he
    · rename_i as has
      cases he
      exact ⟨c, as, hc, has, rfl, hsame⟩
    · cases he

theorem ofArray_eq_some {g : Guard} {as : List NativeArg} (h : ofArray g = some as) :
    ∃ length : Int32, length.toInt = g.length ∧
      as = [.pointer (UInt64.ofNat g.base), .prim .int length] := by
  unfold ofArray at h
  split at h
  · rename_i hle
    refine ⟨Int32.ofNat g.length, ?_, (Option.some.inj h).symm⟩
    have : g.length < 2 ^ 31 := by
      simp only [maxLength] at hle
      omega
    exact Int32.toInt_ofNat_of_lt this
  · cases h

theorem adds_of_add {method : Method} {index : Nat} {kind : ParamKind} {v : Value}
    (he : s.add method index kind v = (none, s')) :
    ∃ as, s.heap.Crosses kind v as ∧ s.Adds as s' := by
  unfold Marshalled.add at he
  dsimp only at he
  split at he
  · split at he
    · rename_i hk
      subst hk
      cases he
      exact ⟨_, .prim, adds_push ..⟩
    · cases he
  · cases he
  · cases he
    exact ⟨_, .null, adds_push ..⟩
  · obtain ⟨c, as, hc, has, hadds⟩ := adds_of_pin he
    cases has
    exact ⟨_, .receiver hc, hadds⟩
  · obtain ⟨c, as, hc, has, hadds⟩ := adds_of_pin he
    cases has
    exact ⟨_, .object hc, hadds⟩
  · cases he
  · split at he
    · cases he
    · rename_i found hfound
      split at he
      · rename_i hk
        obtain ⟨c, as, hc, has, hadds⟩ := adds_of_pin he
        obtain ⟨length, hlength, rfl⟩ := ofArray_eq_some has
        obtain ⟨c', hget, rfl⟩ := exists_of_map_eq_ok hfound
        cases (s.heap.get_eq_ok_iff.1 hget).symm.trans hc
        exact ⟨_, .array hc hk hlength, hadds⟩
      · cases he
  · cases he

/-- Values add, one after another, what each crosses over as. What crosses over for a later value
does so also in the heap at the start. -/
theorem adds_of_addAll {method : Method} {index : Nat} {kinds : List ParamKind}
    {values : List Value} (he : addAll method index kinds values s = (none, s')) :
    ∃ parts, List.Forall₂ (fun kv as => s.heap.Crosses kv.1 kv.2 as) (kinds.zip values) parts ∧
      s.Adds parts.flatten s' := by
  induction kinds generalizing index values s with
  | nil =>
    cases he
    exact ⟨[], .nil, by simp, fun _ => rfl⟩
  | cons kind kinds ih =>
    cases values with
    | nil =>
      cases he
      exact ⟨[], .nil, by simp, fun _ => rfl⟩
    | cons v values =>
      unfold Marshalled.addAll at he
      split at he
      · rename_i s₁ hadd
        obtain ⟨as, hv, hadds⟩ := adds_of_add hadd
        obtain ⟨parts, hparts, hrest⟩ := ih he
        refine ⟨as :: parts, .cons hv (hparts.imp fun _ _ => hadds.heap.crosses), ?_, ?_⟩
        · rw [hrest.args, hadds.args, List.flatten_cons, List.append_assoc]
        · exact fun r => (hrest.heap r).trans (hadds.heap r)
      · cases he

end Marshalled

theorem Heap.types_of_crosses {h : Heap} {kinds : List ParamKind} {values : List Value}
    {parts : List (List NativeArg)} (hlen : kinds.length = values.length)
    (hparts : List.Forall₂ (fun kv as => h.Crosses kv.1 kv.2 as) (kinds.zip values) parts) :
    parts.flatten.map NativeArg.type = kinds.flatMap NativeType.ofParam := by
  induction kinds generalizing values parts with
  | nil =>
    cases hparts
    rfl
  | cons kind kinds ih =>
    cases values with
    | nil => cases hlen
    | cons v values =>
      cases hparts with
      | cons hv hrest =>
        rw [List.flatten_cons, List.map_append, hv.types, ih (Nat.succ.inj hlen) hrest,
          List.flatMap_cons]

/-- What a call hands over agrees with the signature that its entry was lowered to. If no argument
is refused, the native arguments have, place by place, the native types of the plan, and they are
what the managed arguments cross over as, the receiver first: a primitive value as it is, null as
the address 0, an object as the address of its block, an array as that and the number of its
elements. The word of a primitive shows it in its low bytes, that of a boolean is 0 or 1. -/
theorem marshalling_agrees_with_signature {n : Nested} {m : Machine} {e : Entry} {p : CallPlan}
    {h : Heap} {args : List Value} {s : Marshalled} (hp : (Dispatch.lower n e).result m = .ok p)
    (hcount : args.length = e.convention.argCount) (hs : p.marshal h args = (none, s)) :
    s.args.map NativeArg.type = p.params ∧
      (∃ parts, s.args = parts.flatten ∧
        List.Forall₂ (fun kv part => h.Crosses kv.1 kv.2 part)
          (e.convention.nativeParams.zip args) parts) ∧
      ∀ k v, NativeArg.prim k v ∈ s.args → k.ofWord (NativeArg.prim k v).toWord = v ∧
        (k = .boolean → (NativeArg.prim k v).toWord = 0 ∨ (NativeArg.prim k v).toWord = 1) := by
  obtain ⟨_, func, rfl, _⟩ := Dispatch.eq_ofEntry_of_lower hp
  obtain ⟨parts, hparts, hadds⟩ := Marshalled.adds_of_addAll hs
  have hflat : s.args = parts.flatten := by simpa using hadds.args
  refine ⟨?_, ⟨parts, hflat, hparts⟩, fun k v _ => ⟨k.ofWord_widen v, ?_⟩⟩
  · rw [hflat]
    exact Heap.types_of_crosses (e.convention.length_nativeParams.trans hcount.symm) hparts
  · rintro rfl
    cases v <;> simp [NativeArg.toWord, ElemKind.widen, ElemKind.toWord]

/-- A method of an instance that takes an array, an object and a boolean. -/
def drawEntry : Entry where
  unit := "Canvas"
  method := ⟨"Canvas", "draw", "([ILjava/lang/Object;Z)V"⟩
  nativeName := "draw"
  target := .direct ⟨none, "draw"⟩
  convention := ⟨true, [.array .int, .object, .prim .boolean], .void⟩

theorem marshalling_agrees_with_signature_draw :
    let p := CallPlan.ofEntry drawEntry ⟨none, "draw"⟩
    let h := ((({} : Heap).newObject "Canvas" 2 64).2.newArray .int 3 128).2
    let args := [.ref (some ⟨0, 0⟩), .ref (some ⟨1, 0⟩), .null, .prim .boolean true]
    (p.marshal h args).1 = none ∧
      (p.marshal h args).2.args =
        [.pointer 64, .pointer 128, .prim .int 3, .pointer 0, .prim .boolean true] ∧
      (p.marshal h args).2.args.map NativeArg.type = p.params :=
  ⟨by decide, by decide, (marshalling_agrees_with_signature (n := .ofDepth 0)
    (m := .ofProgram { settings := {}, source := ⟨fun _ => .error .notBuiltIn, fun _ => false⟩,
                       native := fun _ => none, provider := fun _ => none, steps := [] })
    (e := drawEntry) rfl rfl (Prod.ext (by decide) rfl)).1⟩

end AccelHost
