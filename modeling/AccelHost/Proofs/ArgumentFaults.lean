import AccelHost.Proofs.Unpinning

/-!
The arguments that a call refuses. What is wrong with an argument can be told from the heap before
the call, since the arguments before it do no more than pin; the first that is wrong is reported,
by its place among the native parameters.
-/
namespace AccelHost

namespace Heap

/-- What is wrong with a value for a parameter, if anything is. -/
def argumentFault? (h : Heap) (method : Method) (index : Nat) (kind : ParamKind) (v : Value) :
    Option DispatchError :=
  let mismatch := some (DispatchError.argumentMismatch method index kind v.kind)
  match kind, v with
  | .prim k, .prim k' _ => if k = k' then none else mismatch
  | .object, .ref none => none
  | .receiver, .ref none => some (.nullReceiver method)
  | .array _, .ref none => some (.nullArray method index)
  | .object, .ref (some r) | .receiver, .ref (some r) =>
    match h.cell? r with
    | none => some (.invalidReference r)
    | some _ => none
  | .array k, .ref (some r) =>
    match h.cell? r with
    | none => some (.invalidReference r)
    | some c => if c.kind = .array k ∧ c.length ≤ Marshalled.maxLength then none else mismatch
  | _, _ => mismatch

/-- What is wrong with some values, in the order of the parameters. They are counted from a start.
-/
def argumentFaults (h : Heap) (method : Method) (start : Nat) (kinds : List ParamKind)
    (values : List Value) : List DispatchError :=
  ((kinds.zip values).zipIdx start).filterMap fun ((kind, v), i) =>
    h.argumentFault? method i kind v

variable {h h' : Heap} {method : Method} {index : Nat} {kind : ParamKind} {v : Value}

theorem Pins.sameUnpinned {gs : List Guard} (hp : h.Pins gs h') : h.SameUnpinned h' := by
  induction hp with
  | nil => exact fun _ => rfl
  | cons hr _ ih => exact fun r => (ih r).trans ((sameUnpinned_of_pin hr).1 r)

/-- Pins make no difference to what is wrong with an argument. -/
theorem SameUnpinned.argumentFault?_eq (hs : h.SameUnpinned h') :
    h'.argumentFault? method index kind v = h.argumentFault? method index kind v := by
  rcases v with ⟨k', x⟩ | _ | r
  · cases kind <;> rfl
  · cases kind <;> rfl
  · have hr := hs r
    cases hc : h.cell? r with
    | none =>
      rw [hc, Option.map_none, Option.map_eq_none_iff] at hr
      cases kind <;> simp only [argumentFault?, hc, hr]
    | some c =>
      rw [hc, Option.map_some] at hr
      obtain ⟨c', hc', hsame⟩ := Option.map_eq_some_iff.1 hr
      simp only [Cell.unpinned, Cell.mk.injEq] at hsame
      obtain ⟨hkind, hlength, -⟩ := hsame
      cases kind <;> simp only [argumentFault?, hc, hc', hkind, hlength]

theorem SameUnpinned.argumentFaults_eq (hs : h.SameUnpinned h') {kinds : List ParamKind}
    {values : List Value} :
    h'.argumentFaults method index kinds values = h.argumentFaults method index kinds values := by
  simp only [argumentFaults, hs.argumentFault?_eq]

theorem argumentFaults_cons {kinds : List ParamKind} {values : List Value} :
    h.argumentFaults method index (kind :: kinds) (v :: values) =
      (h.argumentFault? method index kind v).toList ++
        h.argumentFaults method (index + 1) kinds values := by
  unfold argumentFaults
  rw [List.zip_cons_cons, List.zipIdx_cons, List.filterMap_cons]
  dsimp only
  cases h.argumentFault? method index kind v <;> rfl

end Heap

namespace Marshalled

variable {s s' : Marshalled} {method : Method} {index : Nat}

/-- A live cell is always handed over, unless it does not fit. -/
theorem pin_fst {r : ObjRef} {args : Guard → Option (List NativeArg)}
    {otherwise : DispatchError} : (s.pin r args otherwise).1 =
      match s.heap.cell? r with
      | none => some (.invalidReference r)
      | some c => if (args ⟨r, c.base, c.length⟩).isSome then none else some otherwise := by
  unfold pin
  cases hc : s.heap.cell? r with
  | none => rw [Heap.pin_of_none hc]
  | some c =>
    rw [Heap.pin_of_some hc]
    dsimp only
    cases args ⟨r, c.base, c.length⟩ <;> rfl

theorem isSome_ofArray {g : Guard} : (ofArray g).isSome = true ↔ g.length ≤ maxLength := by
  unfold ofArray
  split <;> simp_all

/-- A reference that has a cell of any kind is refused only if it is stale. -/
theorem pin_any_fst (r : ObjRef) (args : Guard → List NativeArg) (otherwise : DispatchError) :
    (s.pin r (fun g => some (args g)) otherwise).1 =
      match s.heap.cell? r with
      | none => some (.invalidReference r)
      | some _ => none := by
  rw [pin_fst]
  cases s.heap.cell? r <;> rfl

theorem add_fst (s : Marshalled) (method : Method) (index : Nat) (kind : ParamKind) (v : Value) :
    (s.add method index kind v).1 = s.heap.argumentFault? method index kind v := by
  rcases v with ⟨k', x⟩ | _ | r
  · cases kind with
    | prim k =>
      by_cases hk : k = k'
      · simp only [add, Heap.argumentFault?, hk, ↓reduceIte]
      · simp only [add, Heap.argumentFault?, hk, ↓reduceIte]
    | _ => rfl
  · cases kind <;> rfl
  · cases kind with
    | object => exact pin_any_fst r _ (.argumentMismatch method index .object .reference)
    | receiver => exact pin_any_fst r _ (.argumentMismatch method index .receiver .reference)
    | array k =>
      cases hc : s.heap.cell? r with
      | none => simp [add, Heap.argumentFault?, Heap.kind, Heap.get_of_none hc, hc, Except.map]
      | some c =>
        simp only [add, Heap.argumentFault?, Heap.kind, Heap.get_of_some hc, hc, Except.map]
        by_cases hk : c.kind = .array k
        · simp only [hk, true_and, ↓reduceIte, pin_fst, hc, isSome_ofArray]
        · simp only [hk, false_and, ↓reduceIte]
    | _ => rfl

theorem addAll_fst {kinds : List ParamKind} {values : List Value} :
    (addAll method index kinds values s).1 =
      (s.heap.argumentFaults method index kinds values).head? := by
  induction kinds generalizing index values s with
  | nil => rfl
  | cons kind kinds ih =>
    cases values with
    | nil => rfl
    | cons v values =>
      have hfirst := s.add_fst method index kind v
      have hpins := s.pinned_add method index kind v
      rw [Heap.argumentFaults_cons, ← hfirst, addAll]
      generalize s.add method index kind v = added at hpins ⊢
      obtain ⟨error, s₁⟩ := added
      cases error with
      | some e => rfl
      | none =>
        obtain ⟨gs, -, hgs⟩ := hpins
        have hsame : s.heap.SameUnpinned s₁.heap := hgs.sameUnpinned
        rw [Option.toList_none, List.nil_append, ← hsame.argumentFaults_eq]
        exact ih

theorem guards_pin (r : ObjRef) (args : Guard → Option (List NativeArg))
    (otherwise : DispatchError) : ∃ refs, refs.Sublist [r] ∧
      (s.pin r args otherwise).2.guards.map (·.ref) = s.guards.map (·.ref) ++ refs := by
  unfold pin
  cases hc : s.heap.cell? r with
  | none =>
    rw [Heap.pin_of_none hc]
    exact ⟨[], List.nil_sublist _, (List.append_nil _).symm⟩
  | some c =>
    rw [Heap.pin_of_some hc]
    refine ⟨[r], .refl _, ?_⟩
    dsimp only
    cases args ⟨r, c.base, c.length⟩ <;> simp [push]

theorem guards_add (s : Marshalled) (method : Method) (index : Nat) (kind : ParamKind)
    (v : Value) : ∃ refs, refs.Sublist v.ref?.toList ∧
    (s.add method index kind v).2.guards.map (·.ref) = s.guards.map (·.ref) ++ refs := by
  have hsame : ∀ s' : Marshalled, s'.guards = s.guards → ∃ refs, refs.Sublist v.ref?.toList ∧
      s'.guards.map (·.ref) = s.guards.map (·.ref) ++ refs :=
    fun s' hs => ⟨[], List.nil_sublist _, by rw [hs, List.append_nil]⟩
  rcases v with ⟨k', x⟩ | _ | r
  · cases kind with
    | prim k =>
      refine hsame _ ?_
      by_cases hk : k = k' <;> simp [add, hk, push]
    | _ => exact hsame _ rfl
  · cases kind <;> exact hsame _ rfl
  · cases kind with
    | object => exact guards_pin r _ _
    | receiver => exact guards_pin r _ _
    | array k =>
      unfold add
      dsimp only
      cases s.heap.kind r with
      | error e => exact hsame _ rfl
      | ok found =>
        dsimp only
        split
        · exact guards_pin r _ _
        · exact hsame _ rfl
    | _ => exact hsame _ rfl

theorem guards_addAll (s : Marshalled) (method : Method) (index : Nat) (kinds : List ParamKind)
    (values : List Value) : ∃ refs, refs.Sublist (values.filterMap Value.ref?) ∧
      (addAll method index kinds values s).2.guards.map (·.ref) = s.guards.map (·.ref) ++ refs := by
  induction kinds generalizing s index values with
  | nil => exact ⟨[], List.nil_sublist _, (List.append_nil _).symm⟩
  | cons kind kinds ih =>
    cases values with
    | nil => exact ⟨[], List.nil_sublist _, (List.append_nil _).symm⟩
    | cons v values =>
      have hvalues : (v :: values).filterMap Value.ref? =
          v.ref?.toList ++ values.filterMap Value.ref? := by
        cases hv : v.ref? <;> simp [hv]
      obtain ⟨refs, hsub, hguards⟩ := s.guards_add method index kind v
      rw [hvalues, addAll]
      generalize s.add method index kind v = added at hguards ⊢
      obtain ⟨error, s₁⟩ := added
      cases error with
      | some e =>
        exact ⟨refs, hsub.trans (List.sublist_append_left _ _), hguards⟩
      | none =>
        obtain ⟨refs', hsub', hguards'⟩ := ih s₁ (index + 1) values
        refine ⟨refs ++ refs', hsub.append hsub', ?_⟩
        dsimp only at hguards ⊢
        rw [hguards', hguards, List.append_assoc]

end Marshalled

namespace CallPlan

/-- What a call pins goes back without a trace, unless some cell is pinned more often than can be
counted; even then nothing but pins is different. -/
theorem unpinAll_marshal (p : CallPlan) (h : Heap) (args : List Value) :
    h.SameButPins ((p.marshal h args).2.heap.unpinAll (p.marshal h args).2.guards) ∧
      ((∀ r, h.pinCount r + (args.filterMap Value.ref?).count r < UInt32.size) →
        (p.marshal h args).2.heap.unpinAll (p.marshal h args).2.guards = h) := by
  have hpins := p.pins_marshal h args
  refine ⟨hpins.sameButPins.trans (Heap.sameButPins_unpinAll _), fun hfew => ?_⟩
  refine hpins.unpinAll_eq fun r => ?_
  obtain ⟨refs, hsub, hguards⟩ := Marshalled.guards_addAll { heap := h } p.entry.method 0
    p.entry.convention.nativeParams args
  have hcount := hsub.count_le r
  have hroom := hfew r
  rw [marshal, hguards, List.map_nil, List.nil_append]
  omega

end CallPlan

end AccelHost
