import AccelHost.Proofs.CheckedEntries
import AccelHost.Proofs.HeapSlots

/-!
Conventions as lists of tags. A tag stands for one kind and a list of tags for one signature, so
that a signature read from tags is written back as these tags. A list that stands for none is told
by its first tag at fault, where the tag of the result counts as the first.
-/
namespace AccelHost

namespace ParamKind

/-- The bit that is taken off the tag of an array can be put back. -/
theorem arrayBit_or_and_not {t : UInt8} (h : t &&& arrayBit ≠ 0) :
    arrayBit ||| (t &&& ~~~arrayBit) = t := by
  have hbits : ∀ b : BitVec 8, b &&& 0x10 ≠ 0 → 0x10 ||| (b &&& ~~~0x10) = b := by decide
  apply UInt8.toBitVec_inj.1
  apply hbits
  intro hzero
  exact h (UInt8.toBitVec_inj.1 hzero)

theorem ofTag?_eq_some_iff {t : UInt8} {k : ParamKind} : ofTag? t = some k ↔ k.tag = t := by
  constructor
  · intro h
    unfold ofTag? at h
    by_cases hvoid : t = 0
    · rw [if_pos hvoid] at h
      cases h
      exact hvoid.symm
    rw [if_neg hvoid] at h
    by_cases hobject : t = 9
    · rw [if_pos hobject] at h
      cases h
      exact hobject.symm
    rw [if_neg hobject] at h
    by_cases hreceiver : t = 10
    · rw [if_pos hreceiver] at h
      cases h
      exact hreceiver.symm
    rw [if_neg hreceiver] at h
    by_cases harray : t &&& arrayBit ≠ 0
    · rw [if_pos harray] at h
      obtain ⟨e, he, rfl⟩ := Option.map_eq_some_iff.1 h
      rw [tag, ElemKind.ofTag?_eq_some_iff.1 he, arrayBit_or_and_not harray]
    · rw [if_neg harray] at h
      obtain ⟨e, he, rfl⟩ := Option.map_eq_some_iff.1 h
      exact ElemKind.ofTag?_eq_some_iff.1 he
  · rintro rfl
    exact ofTag?_tag k

theorem ofTag?_eq_none_iff {t : UInt8} : ofTag? t = none ↔ ∀ k : ParamKind, k.tag ≠ t := by
  rw [Option.eq_none_iff_forall_ne_some]
  exact forall_congr' fun k => not_congr ofTag?_eq_some_iff

theorem tag_injective : Function.Injective tag := by
  intro k k' h
  have hk := ofTag?_tag k
  rw [h, ofTag?_tag k', Option.some.injEq] at hk
  exact hk.symm

end ParamKind

namespace Convention

open ParamKind (ofTag?_tag ofTag?_eq_some_iff ofTag?_eq_none_iff tag_injective)

/-! ### Lists of tags, said without the reader -/

/-- A signature as entries declare it: parameters are not void, and only the flag tells of a
receiver. -/
structure Proper (c : Convention) : Prop where
  params : ∀ k ∈ c.params, k ≠ .void ∧ k ≠ .receiver
  result : c.result ≠ .receiver

/-- A list of tags that stands for a signature: parameters with at most one receiver, before all
others, and then a result. -/
structure WellTagged (tags : List UInt8) : Prop where
  nonempty : tags ≠ []
  known : ∀ t ∈ tags, ∃ k : ParamKind, k.tag = t
  result : tags.getLast? ≠ some ParamKind.receiver.tag
  params : ParamKind.void.tag ∉ tags.dropLast
  receiver : ∀ i, tags[i]? = some ParamKind.receiver.tag → i = 0

/-- What is wrong with the tag of a parameter at a position. -/
inductive Offends (position : Nat) : UInt8 → ConventionFault → Prop where
  | unknown {t : UInt8} : (∀ k : ParamKind, k.tag ≠ t) →
      Offends position t (.unknownParameter t position)
  | void : Offends position ParamKind.void.tag (.voidParameter position)
  | receiver : position ≠ 0 → Offends position ParamKind.receiver.tag (.lateReceiver position)

/-- What is told of a list of tags that stands for no signature. A parameter is told if the result
is in order, and so are all parameters before it. -/
inductive Refuses : List UInt8 → ConventionFault → Prop where
  | empty : Refuses [] .empty
  | unknownResult {start : List UInt8} {last : UInt8} : (∀ k : ParamKind, k.tag ≠ last) →
      Refuses (start ++ [last]) (.unknownResult last)
  | receiverResult {start : List UInt8} :
      Refuses (start ++ [ParamKind.receiver.tag]) .receiverResult
  | parameter {before behind : List UInt8} {t : UInt8} {result : ParamKind}
      {fault : ConventionFault} : result ≠ .receiver →
      (∀ i s other, before[i]? = some s → ¬ Offends i s other) →
      Offends before.length t fault →
      Refuses (before ++ t :: behind ++ [result.tag]) fault

/-! ### Reading tags -/

variable {c : Convention} {tags : List UInt8} {position : Nat} {fault : ConventionFault}

theorem resultOfTag_eq_ok_iff {t : UInt8} {k : ParamKind} :
    resultOfTag t = .ok k ↔ k ≠ .receiver ∧ k.tag = t := by
  unfold resultOfTag
  constructor
  · intro h
    split at h
    · cases h
    · cases h
    · rename_i k' hne hk
      cases h
      exact ⟨hne, ofTag?_eq_some_iff.1 hk⟩
  · rintro ⟨hne, rfl⟩
    cases k with
    | receiver => exact absurd rfl hne
    | _ => simp [ofTag?_tag]

theorem resultOfTag_eq_error_iff {t : UInt8} :
    resultOfTag t = .error fault ↔
      (∀ k : ParamKind, k.tag ≠ t) ∧ fault = .unknownResult t ∨
        t = ParamKind.receiver.tag ∧ fault = .receiverResult := by
  unfold resultOfTag
  cases hk : ParamKind.ofTag? t with
  | none =>
    have hunknown := ofTag?_eq_none_iff.1 hk
    have hne : t ≠ ParamKind.receiver.tag := (hunknown .receiver).symm
    simp [hunknown, hne, eq_comm]
  | some k =>
    obtain rfl := ofTag?_eq_some_iff.1 hk
    have hknown : ¬ ∀ k' : ParamKind, k'.tag ≠ k.tag := fun h => h k rfl
    rw [tag_injective.eq_iff]
    cases k <;> simp [hknown, eq_comm]

/-- Parameters are read from exactly the tags that they are written as, if none is void and none a
receiver. -/
theorem paramsOfTags_eq_ok_iff {ks : List ParamKind} :
    paramsOfTags position tags = .ok ks ↔
      (∀ k ∈ ks, k ≠ .void ∧ k ≠ .receiver) ∧ ks.map ParamKind.tag = tags := by
  induction tags generalizing position ks with
  | nil => cases ks <;> simp [paramsOfTags]
  | cons t rest ih =>
    constructor
    · intro h
      unfold paramsOfTags at h
      split at h
      · cases h
      · cases h
      · cases h
      · rename_i k hvoid hreceiver hk
        cases hrest : paramsOfTags (position + 1) rest with
        | error fault =>
          rw [hrest] at h
          cases h
        | ok ks' =>
          rw [hrest] at h
          cases h
          obtain ⟨hkinds, htags⟩ := ih.1 hrest
          refine ⟨List.forall_mem_cons.2 ⟨⟨hvoid, hreceiver⟩, hkinds⟩, ?_⟩
          rw [List.map_cons, htags, ofTag?_eq_some_iff.1 hk]
    · rintro ⟨hkinds, htags⟩
      obtain ⟨k, ks, rfl, rfl, rfl⟩ := List.map_eq_cons_iff.1 htags
      obtain ⟨⟨hvoid, hreceiver⟩, hrest⟩ := List.forall_mem_cons.1 hkinds
      have hread : paramsOfTags (position + 1) (ks.map ParamKind.tag) = .ok ks :=
        ih.2 ⟨hrest, rfl⟩
      unfold paramsOfTags
      rw [ofTag?_tag]
      cases k with
      | void => exact absurd rfl hvoid
      | receiver => exact absurd rfl hreceiver
      | _ => simp only [hread]

theorem Offends.unique {t : UInt8} {other : ConventionFault} (h : Offends position t fault)
    (h' : Offends position t other) : fault = other := by
  generalize ht : t = t' at h'
  cases h with
  | unknown hunknown =>
    cases h' with
    | unknown => rw [ht]
    | void => exact absurd ht.symm (hunknown .void)
    | receiver => exact absurd ht.symm (hunknown .receiver)
  | void =>
    cases h' with
    | unknown hunknown => exact absurd ht (hunknown .void)
    | void => rfl
    | receiver => cases tag_injective ht
  | receiver =>
    cases h' with
    | unknown hunknown => exact absurd ht (hunknown .receiver)
    | void => cases tag_injective ht
    | receiver => rfl

theorem paramsOfTags_of_offends {t : UInt8} (h : Offends position t fault) (rest : List UInt8) :
    paramsOfTags position (t :: rest) = .error fault := by
  cases h with
  | unknown hunknown => simp [paramsOfTags, ofTag?_eq_none_iff.2 hunknown]
  | void => simp [paramsOfTags, ofTag?_tag]
  | receiver => simp [paramsOfTags, ofTag?_tag]

theorem paramsOfTags_of_not_offends {t : UInt8} (h : ∀ fault, ¬ Offends position t fault)
    (hfirst : position = 0 → t ≠ ParamKind.receiver.tag) (rest : List UInt8) :
    ∃ k, paramsOfTags position (t :: rest) =
      (paramsOfTags (position + 1) rest).map fun ks => k :: ks := by
  cases hk : ParamKind.ofTag? t with
  | none => exact absurd (.unknown (ofTag?_eq_none_iff.1 hk)) (h _)
  | some k =>
    obtain rfl := ofTag?_eq_some_iff.1 hk
    refine ⟨k, ?_⟩
    cases k with
    | void => exact absurd .void (h _)
    | receiver => exact absurd (.receiver fun hzero => hfirst hzero rfl) (h _)
    | prim | object | array =>
      simp only [paramsOfTags, hk]
      cases paramsOfTags (position + 1) rest <;> rfl

/-- Of parameters the first tag at fault is told. A receiver is one behind the first position, and
is not looked for at that. -/
theorem paramsOfTags_eq_error_iff
    (hfirst : position = 0 → tags.head? ≠ some ParamKind.receiver.tag) :
    paramsOfTags position tags = .error fault ↔
      ∃ before t behind, tags = before ++ t :: behind ∧
        (∀ i s other, before[i]? = some s → ¬ Offends (position + i) s other) ∧
        Offends (position + before.length) t fault := by
  induction tags generalizing position with
  | nil => simp [paramsOfTags]
  | cons t rest ih =>
    by_cases hoffends : ∃ other, Offends position t other
    · obtain ⟨other, hother⟩ := hoffends
      rw [paramsOfTags_of_offends hother]
      constructor
      · intro h
        cases h
        exact ⟨[], t, rest, rfl, fun i s _ hi => by simp at hi, hother⟩
      · rintro ⟨before, t', behind, heq, hbefore, hfault⟩
        cases before with
        | nil =>
          cases heq
          rw [hother.unique hfault]
        | cons s before =>
          cases heq
          exact absurd hother (hbefore 0 t other rfl)
    · have hgood : ∀ other, ¬ Offends position t other := not_exists.1 hoffends
      obtain ⟨k, hk⟩ := paramsOfTags_of_not_offends hgood
        (fun hzero ht => hfirst hzero (congrArg some ht)) rest
      have hrest := @ih (position + 1) fun hzero => absurd hzero position.succ_ne_zero
      have hpass : paramsOfTags position (t :: rest) = .error fault ↔
          paramsOfTags (position + 1) rest = .error fault := by
        rw [hk]
        cases paramsOfTags (position + 1) rest <;> simp [Except.map]
      have hshift : ∀ i, position + 1 + i = position + (i + 1) := by omega
      simp only [hpass, hrest, hshift]
      constructor
      · rintro ⟨before, t', behind, rfl, hbefore, hfault⟩
        refine ⟨t :: before, t', behind, rfl, fun i s other hi => ?_, hfault⟩
        cases i with
        | zero =>
          cases hi
          exact hgood other
        | succ i => exact hbefore i s other hi
      · rintro ⟨before, t', behind, heq, hbefore, hfault⟩
        cases before with
        | nil =>
          cases heq
          exact absurd hfault (hgood fault)
        | cons s before =>
          cases heq
          exact ⟨before, t', behind, rfl, fun i s other hi => hbefore (i + 1) s other hi, hfault⟩

/-! ### Whole signatures -/

theorem ofTags_of_result_error {last : UInt8} (h : resultOfTag last = .error fault)
    (start : List UInt8) : ofTags (start ++ [last]) = .error fault := by
  simp [ofTags, h]

theorem ofTags_of_result {result : ParamKind} (hr : result ≠ .receiver) (start : List UInt8) :
    ofTags (start ++ [result.tag]) =
      if start.head? = some ParamKind.receiver.tag then
        (paramsOfTags 1 start.tail).map fun ks => ⟨true, ks, result⟩
      else (paramsOfTags 0 start).map fun ks => ⟨false, ks, result⟩ := by
  have hresult : resultOfTag result.tag = .ok result := resultOfTag_eq_ok_iff.2 ⟨hr, rfl⟩
  have hfirst : (start.head?.bind ParamKind.ofTag? == some .receiver) = true ↔
      start.head? = some ParamKind.receiver.tag := by
    simp only [beq_iff_eq, Option.bind_eq_some_iff, ofTag?_eq_some_iff]
    exact ⟨fun ⟨t, ht, he⟩ => he ▸ ht, fun ht => ⟨_, ht, rfl⟩⟩
  unfold ofTags
  rw [List.getLast?_concat]
  simp only [hresult, List.dropLast_concat]
  by_cases hreceiver : start.head? = some ParamKind.receiver.tag
  · rw [hfirst.2 hreceiver, if_pos hreceiver]
    simp only [↓reduceIte]
    cases paramsOfTags 1 start.tail <;> rfl
  · rw [Bool.eq_false_iff.2 (mt hfirst.1 hreceiver), if_neg hreceiver]
    simp only [Bool.false_eq_true, ↓reduceIte]
    cases paramsOfTags 0 start <;> rfl

theorem ofTags_eq_ok_iff : ofTags tags = .ok c ↔ c.Proper ∧ c.toTags = tags := by
  constructor
  · intro h
    rcases List.eq_nil_or_concat' tags with rfl | ⟨start, last, rfl⟩
    · cases h
    cases hlast : resultOfTag last with
    | error fault =>
      rw [ofTags_of_result_error hlast] at h
      cases h
    | ok result =>
      obtain ⟨hr, rfl⟩ := resultOfTag_eq_ok_iff.1 hlast
      rw [ofTags_of_result hr] at h
      by_cases hreceiver : start.head? = some ParamKind.receiver.tag
      · rw [if_pos hreceiver] at h
        obtain ⟨params, hparams, rfl⟩ := exists_of_map_eq_ok h
        obtain ⟨hkinds, htags⟩ := paramsOfTags_eq_ok_iff.1 hparams
        obtain ⟨rest, rfl⟩ := List.head?_eq_some_iff.1 hreceiver
        exact ⟨⟨hkinds, hr⟩, by simpa [toTags, nativeParams] using htags⟩
      · rw [if_neg hreceiver] at h
        obtain ⟨params, hparams, rfl⟩ := exists_of_map_eq_ok h
        obtain ⟨hkinds, htags⟩ := paramsOfTags_eq_ok_iff.1 hparams
        exact ⟨⟨hkinds, hr⟩, by simpa [toTags, nativeParams] using htags⟩
  · rintro ⟨hproper, rfl⟩
    obtain ⟨hasReceiver, params, result⟩ := c
    have hread : ∀ position, paramsOfTags position (params.map ParamKind.tag) = .ok params :=
      fun position => paramsOfTags_eq_ok_iff.2 ⟨hproper.params, rfl⟩
    rw [toTags, ofTags_of_result hproper.result]
    cases hasReceiver with
    | true => simp [nativeParams, hread, Except.map]
    | false =>
      have hhead : (params.map ParamKind.tag).head? ≠ some ParamKind.receiver.tag := by
        rw [List.head?_map]
        intro hhead
        obtain ⟨k, hk, htag⟩ := Option.map_eq_some_iff.1 hhead
        exact (hproper.params k (List.mem_of_head? hk)).2 (tag_injective htag)
      rw [nativeParams, if_neg Bool.false_ne_true, if_neg hhead, hread]
      rfl

theorem not_offends_of_receiver : ¬ Offends 0 ParamKind.receiver.tag fault := by
  intro h
  generalize ht : ParamKind.receiver.tag = t at h
  cases h with
  | unknown hunknown => exact hunknown .receiver ht
  | void => cases tag_injective ht
  | receiver hpos => exact hpos rfl

theorem ofTags_concat_eq_error_iff {result : ParamKind} (hr : result ≠ .receiver)
    (start : List UInt8) :
    ofTags (start ++ [result.tag]) = .error fault ↔
      ∃ before t behind, start = before ++ t :: behind ∧
        (∀ i s other, before[i]? = some s → ¬ Offends i s other) ∧
        Offends before.length t fault := by
  have hmap {params : Except ConventionFault (List ParamKind)} {f : List ParamKind → Convention} :
      params.map f = .error fault ↔ params = .error fault := by
    cases params <;> simp [Except.map]
  rw [ofTags_of_result hr]
  by_cases hreceiver : start.head? = some ParamKind.receiver.tag
  · obtain ⟨rest, rfl⟩ := List.head?_eq_some_iff.1 hreceiver
    have hshift : ∀ i, 1 + i = i + 1 := Nat.add_comm 1
    rw [if_pos hreceiver, hmap, List.tail_cons,
      paramsOfTags_eq_error_iff fun hone => absurd hone Nat.one_ne_zero]
    simp only [hshift]
    constructor
    · rintro ⟨before, t, behind, rfl, hbefore, hfault⟩
      refine ⟨ParamKind.receiver.tag :: before, t, behind, rfl, fun i s other hi => ?_, hfault⟩
      cases i with
      | zero =>
        cases hi
        exact not_offends_of_receiver
      | succ i => exact hbefore i s other hi
    · rintro ⟨before, t, behind, heq, hbefore, hfault⟩
      cases before with
      | nil =>
        cases heq
        exact absurd hfault not_offends_of_receiver
      | cons s before =>
        cases heq
        exact ⟨before, t, behind, rfl, fun i s other hi => hbefore (i + 1) s other hi, hfault⟩
  · rw [if_neg hreceiver, hmap, paramsOfTags_eq_error_iff fun _ => hreceiver]
    simp only [Nat.zero_add]

theorem ofTags_eq_error_iff : ofTags tags = .error fault ↔ Refuses tags fault := by
  constructor
  · intro h
    rcases List.eq_nil_or_concat' tags with rfl | ⟨start, last, rfl⟩
    · cases h
      exact .empty
    cases hlast : resultOfTag last with
    | error other =>
      rw [ofTags_of_result_error hlast] at h
      cases h
      rcases resultOfTag_eq_error_iff.1 hlast with ⟨hunknown, rfl⟩ | ⟨rfl, rfl⟩
      · exact .unknownResult hunknown
      · exact .receiverResult
    | ok result =>
      obtain ⟨hr, rfl⟩ := resultOfTag_eq_ok_iff.1 hlast
      obtain ⟨before, t, behind, rfl, hbefore, hfault⟩ := (ofTags_concat_eq_error_iff hr start).1 h
      exact .parameter hr hbefore hfault
  · intro h
    cases h with
    | empty => rfl
    | unknownResult hunknown =>
      exact ofTags_of_result_error (resultOfTag_eq_error_iff.2 (.inl ⟨hunknown, rfl⟩)) _
    | receiverResult =>
      exact ofTags_of_result_error (resultOfTag_eq_error_iff.2 (.inr ⟨rfl, rfl⟩)) _
    | parameter hr hbefore hfault =>
      exact (ofTags_concat_eq_error_iff hr _).2 ⟨_, _, _, rfl, hbefore, hfault⟩

theorem Proper.wellTagged (h : c.Proper) : WellTagged c.toTags := by
  have hparams : ∀ k ∈ c.nativeParams, k ≠ .void := by
    intro k hk
    unfold nativeParams at hk
    split at hk
    · rcases List.mem_cons.1 hk with rfl | hk
      · exact ParamKind.noConfusion
      · exact (h.params k hk).1
    · exact (h.params k hk).1
  refine ⟨by simp [toTags], fun t ht => ?_, ?_, ?_, fun i hi => ?_⟩
  · rcases List.mem_append.1 ht with ht | ht
    · obtain ⟨k, -, rfl⟩ := List.mem_map.1 ht
      exact ⟨k, rfl⟩
    · exact ⟨c.result, (List.mem_singleton.1 ht).symm⟩
  · rw [toTags, List.getLast?_concat, ne_eq, Option.some.injEq, tag_injective.eq_iff]
    exact h.result
  · rw [toTags, List.dropLast_concat]
    intro hvoid
    obtain ⟨k, hk, htag⟩ := List.mem_map.1 hvoid
    exact hparams k hk (tag_injective htag)
  · rw [toTags, ← List.map_singleton, ← List.map_append, List.getElem?_map] at hi
    obtain ⟨k, hk, htag⟩ := Option.map_eq_some_iff.1 hi
    obtain rfl := tag_injective htag
    rcases Nat.lt_or_ge i c.nativeParams.length with hlt | hge
    · rw [List.getElem?_append_left hlt] at hk
      exact receiver_first (fun hmem => (h.params _ hmem).2 rfl) hk
    · rw [List.getElem?_append_right hge] at hk
      have hmem := List.mem_singleton.1 (List.mem_of_getElem? hk)
      exact absurd hmem.symm h.result

theorem WellTagged.not_refuses (h : WellTagged tags) : ¬ Refuses tags fault := by
  intro hrefuses
  cases hrefuses with
  | empty => exact h.nonempty rfl
  | @unknownResult start last hunknown =>
    obtain ⟨k, hk⟩ := h.known last (by simp)
    exact hunknown k hk
  | receiverResult => exact h.result List.getLast?_concat
  | @parameter before behind t result _ hr hbefore hfault =>
    cases hfault with
    | unknown hunknown =>
      obtain ⟨k, hk⟩ := h.known t (by simp)
      exact hunknown k hk
    | void => exact h.params (by rw [List.dropLast_concat]; simp)
    | receiver hpos => exact hpos (h.receiver _ (by simp))

theorem exists_ofTags_iff : (∃ c, ofTags tags = .ok c) ↔ WellTagged tags := by
  constructor
  · rintro ⟨c, hc⟩
    obtain ⟨hproper, rfl⟩ := ofTags_eq_ok_iff.1 hc
    exact hproper.wellTagged
  · intro h
    cases hread : ofTags tags with
    | ok c => exact ⟨c, rfl⟩
    | error fault => exact absurd (ofTags_eq_error_iff.1 hread) h.not_refuses

theorem length_toTags (c : Convention) : c.toTags.length = c.argCount + 1 := by
  rw [toTags, List.length_append, List.length_map, c.length_nativeParams, List.length_singleton]

/-- Conventions are read from their tags without loss. A list of tags is read exactly if it stands
for a signature, which is then written as the same tags; and every proper signature is read from
the tags that it is written as. All but one of the tags are of arguments. A list that is not read is
told by its result, or else by the position of the first parameter at fault. -/
theorem ofTags_lossless :
    (∀ tags, (∃ c, ofTags tags = .ok c) ↔ WellTagged tags) ∧
    (∀ tags c, ofTags tags = .ok c →
      c.nativeParams.map ParamKind.tag ++ [c.result.tag] = tags ∧
        c.argCount = tags.length - 1) ∧
    (∀ (hasReceiver : Bool) (params : List ParamKind) (result : ParamKind),
      (∀ k ∈ params, k ≠ .void ∧ k ≠ .receiver) → result ≠ .receiver →
      let c : Convention := ⟨hasReceiver, params, result⟩
      ofTags (c.nativeParams.map ParamKind.tag ++ [c.result.tag]) = .ok c) ∧
    ∀ tags fault, ofTags tags = .error fault ↔ Refuses tags fault := by
  refine ⟨fun tags => exists_ofTags_iff, fun tags c hc => ?_,
    fun hasReceiver params result hparams hresult => ?_, fun tags fault => ofTags_eq_error_iff⟩
  · obtain ⟨-, rfl⟩ := ofTags_eq_ok_iff.1 hc
    exact ⟨rfl, by rw [length_toTags, Nat.add_sub_cancel]⟩
  · exact ofTags_eq_ok_iff.2 ⟨⟨hparams, hresult⟩, rfl⟩

/-- The result is told first, and no bit beyond those of the tags is passed over. -/
example : ofTags [0, 10] = .error .receiverResult ∧
    ofTags [10, 5, 0, 10, 0] = .error (.voidParameter 2) ∧
    ofTags [10, 0x35, 0] = .error (.unknownParameter 0x35 1) := by decide

end Convention

end AccelHost
