import AccelHost.Signature.Descriptor
import Mathlib.Data.List.TakeWhile

/-!
The language of method descriptors. A method type prints to its descriptor; no two print to the
same one, and the reader accepts exactly what some method type prints to.
-/
namespace AccelHost

/-- The type under the dimensions of an array. A class name may hold anything but its end. -/
inductive BaseType where
  | prim (k : ElemKind)
  | named (name : List Char) (nonempty : name ≠ []) (free : ';' ∉ name)

namespace BaseType

def text : BaseType → List Char
  | prim k => [k.letter]
  | named name _ _ => 'L' :: (name ++ [';'])

def elem? : BaseType → Option ElemKind
  | prim k => some k
  | named .. => none

end BaseType

/-- The type of a parameter or of a result that is not void. -/
structure FieldType where
  dimensions : Nat
  base : BaseType
  bounded : dimensions ≤ 255

namespace FieldType

def text (f : FieldType) : List Char := List.replicate f.dimensions '[' ++ f.base.text

/-- The kind of native parameter for a field: only primitives and their arrays are told apart. -/
def kind (f : FieldType) : ParamKind :=
  match f.dimensions, f.base with
  | 0, .prim k => .prim k
  | 1, .prim k => .array k
  | _, _ => .object

end FieldType

/-- The type of a method. Without a result it is void. -/
structure MethodType where
  params : List FieldType
  result : Option FieldType

namespace MethodType

def resultText : Option FieldType → List Char
  | none => ['V']
  | some f => f.text

def resultKind : Option FieldType → ParamKind
  | none => .void
  | some f => f.kind

def text (t : MethodType) : List Char :=
  '(' :: (t.params.flatMap FieldType.text ++ ')' :: resultText t.result)

def descriptor (t : MethodType) : Descriptor :=
  ⟨t.params.map FieldType.kind, resultKind t.result⟩

end MethodType

/-! ### Reading what was printed -/

namespace Descriptor

open Text

theorem letter_ne (k : ElemKind) :
    k.letter ≠ '[' ∧ k.letter ≠ 'L' ∧ k.letter ≠ ')' ∧ k.letter ≠ 'V' := by
  cases k <;> decide

theorem parseBase_eq_ok_iff {s rest : List Char} {e : Option ElemKind} :
    parseBase s = .ok (e, rest) ↔ ∃ b : BaseType, s = b.text ++ rest ∧ b.elem? = e := by
  constructor
  · intro h
    unfold parseBase at h
    split at h
    · cases h
    · rename_i r
      split at h
      · cases h
      · cases h
      · rename_i name after hne hcut
        cases h
        obtain ⟨rfl, hfree⟩ := cut_eq_some_iff.1 hcut
        have hname : name ≠ [] := hne
        exact ⟨.named name hname hfree, by simp [BaseType.text], rfl⟩
    · rename_i c r _
      split at h
      · cases h
      · rename_i k hk
        cases h
        have hletter := ElemKind.ofLetter?_eq_some_iff.1 hk
        exact ⟨.prim k, by simp [BaseType.text, hletter], rfl⟩
  · rintro ⟨b, rfl, rfl⟩
    cases b with
    | prim k =>
      have hL := (letter_ne k).2.1
      simp only [BaseType.text, List.singleton_append]
      rw [parseBase]
      · rw [ElemKind.ofLetter?_letter]
        rfl
      · exact hL
    | named name hname hfree =>
      have hcut : cut ';' (name ++ ';' :: rest) = some (name, rest) :=
        cut_eq_some_iff.2 ⟨rfl, hfree⟩
      cases name with
      | nil => exact absurd rfl hname
      | cons c r =>
        simp only [BaseType.text, List.cons_append, List.append_assoc, List.nil_append] at hcut ⊢
        simp only [parseBase, hcut, BaseType.elem?]

theorem head_base (b : BaseType) :
    ∃ c r, b.text = c :: r ∧ c ≠ '[' ∧ c ≠ ')' ∧ c ≠ 'V' := by
  cases b with
  | prim k =>
    obtain ⟨hdim, -, hclose, hvoid⟩ := letter_ne k
    exact ⟨_, _, rfl, hdim, hclose, hvoid⟩
  | named name _ _ => exact ⟨_, _, rfl, by decide⟩

/-- The dimensions of a field are the brackets before its base. -/
theorem takeWhile_field (f : FieldType) (rest : List Char) :
    (f.text ++ rest).takeWhile (· == '[') = List.replicate f.dimensions '[' ∧
      (f.text ++ rest).dropWhile (· == '[') = f.base.text ++ rest := by
  obtain ⟨c, r, hbase, hc, -⟩ := head_base f.base
  have hall : ∀ x ∈ List.replicate f.dimensions '[', (x == '[') = true := by simp
  rw [FieldType.text, List.append_assoc, List.takeWhile_append_of_pos hall,
    List.dropWhile_append_of_pos hall, hbase]
  simp [hc]

theorem kind_eq (f : FieldType) : fieldKind f.dimensions f.base.elem? = f.kind := by
  obtain ⟨n, b, hn⟩ := f
  rcases n with _ | _ | n <;> cases b <;> rfl

theorem parseField_eq_ok_iff {s rest : List Char} {k : ParamKind} :
    parseField s = .ok (k, rest) ↔ ∃ f : FieldType, s = f.text ++ rest ∧ f.kind = k := by
  constructor
  · intro h
    unfold parseField at h
    dsimp only at h
    split at h
    · cases h
    · rename_i hbound
      split at h
      · cases h
      · rename_i e after hbase
        cases h
        obtain ⟨b, hb, rfl⟩ := parseBase_eq_ok_iff.1 hbase
        have hbrackets : s.takeWhile (· == '[') =
            List.replicate (s.takeWhile (· == '[')).length '[' := by
          refine List.eq_replicate_of_mem fun c hc => ?_
          simpa using List.mem_takeWhile_imp hc
        refine ⟨⟨_, b, Nat.not_lt.1 hbound⟩, ?_, (kind_eq _).symm⟩
        rw [FieldType.text, ← hbrackets, List.append_assoc, ← hb, List.takeWhile_append_dropWhile]
  · rintro ⟨f, rfl, rfl⟩
    obtain ⟨htake, hdrop⟩ := takeWhile_field f rest
    have hbound : ¬ maxDimensions < f.dimensions := Nat.not_lt.2 f.bounded
    have hbase := parseBase_eq_ok_iff.2 ⟨f.base, (rfl : f.base.text ++ rest = _), rfl⟩
    simp only [parseField, htake, hdrop, List.length_replicate, hbound, ↓reduceIte, hbase, kind_eq]

/-- The text of a field starts neither like the end of the parameters nor like void. -/
theorem head_field (f : FieldType) : ∃ c r, f.text = c :: r ∧ c ≠ ')' ∧ c ≠ 'V' := by
  obtain ⟨c, r, hbase, -, hclose, hvoid⟩ := head_base f.base
  cases hn : f.dimensions with
  | zero => exact ⟨c, r, by rw [FieldType.text, hn, hbase]; rfl, hclose, hvoid⟩
  | succ n => exact ⟨'[', List.replicate n '[' ++ f.base.text,
      by rw [FieldType.text, hn, List.replicate_succ, List.cons_append], by decide⟩

theorem parseParams_close (offset : Nat) (rest : List Char) :
    parseParams offset (')' :: rest) = .ok ([], rest) := by
  rw [parseParams, if_pos rfl]

theorem parseParams_field {offset : Nat} {c : Char} {r : List Char} (hc : c ≠ ')') :
    parseParams offset (c :: r) =
      match parseField (c :: r) with
      | .error fault => .error (.parameter offset fault)
      | .ok (k, rest) =>
        match parseParams (offset + (byteLength (c :: r) - byteLength rest)) rest with
        | .error fault => .error fault
        | .ok (ks, after) => .ok (k :: ks, after) := by
  rw [parseParams, if_neg hc]
  split
  · rename_i hfield
    rw [hfield]
  · rename_i k rest hfield
    cases hrest : parseParams (offset + (byteLength (c :: r) - byteLength rest)) rest with
    | error fault => simp only [hfield, hrest]
    | ok more => simp only [hfield, hrest]

theorem parseParams_eq_ok_iff {offset : Nat} {s rest : List Char} {ks : List ParamKind} :
    parseParams offset s = .ok (ks, rest) ↔
      ∃ fs : List FieldType, s = fs.flatMap FieldType.text ++ ')' :: rest ∧
        fs.map FieldType.kind = ks := by
  constructor
  · intro h
    induction offset, s using parseParams.induct generalizing ks with
    | case1 offset =>
      rw [parseParams] at h
      cases h
    | case2 offset r =>
      rw [parseParams_close] at h
      cases h
      exact ⟨[], rfl, rfl⟩
    | case3 offset c r hc fault hfield =>
      rw [parseParams_field hc, hfield] at h
      cases h
    | case4 offset c r hc k after hfield _ next fault hparams =>
      rw [parseParams_field hc, hfield] at h
      simp only [next] at hparams
      simp only [hparams] at h
      cases h
    | case5 offset c r hc k after hfield _ next ks' after' hparams =>
      rename_i ih
      rw [parseParams_field hc, hfield] at h
      simp only [next] at hparams
      simp only [hparams] at h
      cases h
      obtain ⟨f, hf, rfl⟩ := parseField_eq_ok_iff.1 hfield
      obtain ⟨fs, rfl, rfl⟩ := ih hparams
      exact ⟨f :: fs, by rw [hf, List.flatMap_cons, List.append_assoc], rfl⟩
  · rintro ⟨fs, rfl, rfl⟩
    induction fs generalizing offset with
    | nil => exact parseParams_close offset rest
    | cons f fs ih =>
      obtain ⟨c, r, hf, hc, -⟩ := head_field f
      have hfield := parseField_eq_ok_iff.2
        ⟨f, (rfl : f.text ++ (fs.flatMap FieldType.text ++ ')' :: rest) = _), rfl⟩
      rw [List.flatMap_cons, List.append_assoc]
      rw [hf, List.cons_append] at hfield ⊢
      rw [parseParams_field hc, hfield]
      simp only [ih, List.map_cons]

theorem parseResult_eq_ok_iff {s : List Char} {k : ParamKind} :
    parseResult s = .ok k ↔ ∃ r, s = MethodType.resultText r ∧ MethodType.resultKind r = k := by
  constructor
  · intro h
    unfold parseResult at h
    split at h
    · rename_i hvoid
      cases h
      exact ⟨none, hvoid, rfl⟩
    · split at h
      · cases h
      · rename_i k' hfield
        cases h
        obtain ⟨f, hf, hkind⟩ := parseField_eq_ok_iff.1 hfield
        exact ⟨some f, by rw [hf, List.append_nil]; rfl, hkind⟩
      · cases h
  · rintro ⟨none | f, rfl, rfl⟩
    · rfl
    · obtain ⟨c, r, hf, -, hvoid⟩ := head_field f
      have hne : f.text ≠ ['V'] := by
        rw [hf]
        simp [hvoid]
      have hfield := parseField_eq_ok_iff.2 ⟨f, (List.append_nil f.text).symm, rfl⟩
      simp only [parseResult, MethodType.resultText, hne, ↓reduceIte, hfield,
        MethodType.resultKind]

/-- A text is read exactly if a method type prints to it, and then as the kinds of that type. -/
theorem parse_eq_ok_iff {text : String} {d : Descriptor} :
    parse text = .ok d ↔ ∃ t : MethodType, t.text = text.toList ∧ t.descriptor = d := by
  constructor
  · intro h
    unfold parse at h
    split at h
    · rename_i s hs
      split at h
      · cases h
      · rename_i ks rest hparams
        split at h
        · cases h
        · rename_i k hresult
          cases h
          obtain ⟨fs, rfl, rfl⟩ := parseParams_eq_ok_iff.1 hparams
          obtain ⟨r, rfl, rfl⟩ := parseResult_eq_ok_iff.1 hresult
          exact ⟨⟨fs, r⟩, hs.symm, rfl⟩
    · cases h
  · rintro ⟨t, ht, rfl⟩
    have hparams : parseParams 1 (t.params.flatMap FieldType.text ++
        ')' :: MethodType.resultText t.result) = .ok (_, _) :=
      parseParams_eq_ok_iff.2 ⟨t.params, rfl, rfl⟩
    have hresult := parseResult_eq_ok_iff.2 ⟨t.result, rfl, rfl⟩
    rw [parse, ← ht]
    simp only [MethodType.text, hparams, hresult, MethodType.descriptor]

/-! ### No two types print alike -/

theorem base_text_inj {b b' : BaseType} {rest rest' : List Char}
    (h : b.text ++ rest = b'.text ++ rest') : b = b' ∧ rest = rest' := by
  -- The reader tells where a base ends, and what stands before its end is the base.
  have hread : parseBase (b.text ++ rest) = .ok (b.elem?, rest) :=
    parseBase_eq_ok_iff.2 ⟨b, rfl, rfl⟩
  have hread' : parseBase (b'.text ++ rest') = .ok (b'.elem?, rest') :=
    parseBase_eq_ok_iff.2 ⟨b', rfl, rfl⟩
  rw [h, hread'] at hread
  injection hread with hpair
  injection hpair with helem hrest
  subst hrest
  have htext := List.append_cancel_right h
  refine ⟨?_, rfl⟩
  cases b <;> cases b' <;> simp_all [BaseType.text, BaseType.elem?]

theorem field_text_inj {f f' : FieldType} {rest rest' : List Char}
    (h : f.text ++ rest = f'.text ++ rest') : f = f' ∧ rest = rest' := by
  have htake := (takeWhile_field f rest).1
  have hdrop := (takeWhile_field f rest).2
  rw [h, (takeWhile_field f' rest').1] at htake
  rw [h, (takeWhile_field f' rest').2] at hdrop
  have hdimensions := congrArg List.length htake
  rw [List.length_replicate, List.length_replicate] at hdimensions
  obtain ⟨hbase, hrest⟩ := base_text_inj hdrop
  obtain ⟨n, b, hn⟩ := f
  obtain ⟨n', b', hn'⟩ := f'
  simp_all

theorem params_text_inj {fs fs' : List FieldType} {rest rest' : List Char}
    (h : fs.flatMap FieldType.text ++ ')' :: rest = fs'.flatMap FieldType.text ++ ')' :: rest') :
    fs = fs' ∧ rest = rest' := by
  induction fs generalizing fs' with
  | nil =>
    cases fs' with
    | nil => simpa using h
    | cons f' fs' =>
      obtain ⟨c, r, hf, hc, -⟩ := head_field f'
      simp [hf, Ne.symm hc] at h
  | cons f fs ih =>
    cases fs' with
    | nil =>
      obtain ⟨c, r, hf, hc, -⟩ := head_field f
      simp [hf, hc] at h
    | cons f' fs' =>
      rw [List.flatMap_cons, List.flatMap_cons, List.append_assoc, List.append_assoc] at h
      obtain ⟨rfl, htail⟩ := field_text_inj h
      obtain ⟨rfl, hrest⟩ := ih htail
      exact ⟨rfl, hrest⟩

theorem result_text_inj {r r' : Option FieldType}
    (h : MethodType.resultText r = MethodType.resultText r') : r = r' := by
  cases r with
  | none =>
    cases r' with
    | none => rfl
    | some f' =>
      obtain ⟨c, s, hf, -, hc⟩ := head_field f'
      simp [MethodType.resultText, hf, Ne.symm hc] at h
  | some f =>
    cases r' with
    | none =>
      obtain ⟨c, s, hf, -, hc⟩ := head_field f
      simp [MethodType.resultText, hf, hc] at h
    | some f' =>
      have hfields : f.text ++ [] = f'.text ++ [] := by simpa [MethodType.resultText] using h
      rw [(field_text_inj hfields).1]

theorem text_injective {t t' : MethodType} (h : t.text = t'.text) : t = t' := by
  obtain ⟨ps, r⟩ := t
  obtain ⟨ps', r'⟩ := t'
  obtain ⟨hps, hr⟩ := params_text_inj (List.cons.inj h).2
  rw [MethodType.mk.injEq]
  exact ⟨hps, result_text_inj hr⟩

end Descriptor

end AccelHost
