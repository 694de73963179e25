import AccelHost.Proofs.DescriptorGrammar
import AccelHost.Proofs.Encoding

/-!
Descriptors read byte by byte, with every position spelled out. A position that passes the end of
the bytes, or a field that leaves it where it is, gives `none`: over the bytes of a text that never
happens, and the reader of texts finds the same.
-/
namespace AccelHost.Descriptor

open Text

/-! ### Reading at positions -/

/-- The bytes from a position on. There are none, not even no bytes, past the end. -/
def from? (bytes : List UInt8) (pos : Nat) : Option (List UInt8) :=
  if pos ≤ bytes.length then some (bytes.drop pos) else none

def ofByte? (b : UInt8) : Option ElemKind := ElemKind.all.find? fun k => ascii k.letter == b

/-- The type at a position under its dimensions, and the position behind it. -/
def scanBase? (bytes : List UInt8) (pos : Nat) :
    Option (Except FieldFault (Option ElemKind × Nat)) := do
  match ← from? bytes pos with
  | [] => return .error .missingType
  | b :: _ =>
    if b = ascii 'L' then
      match (← from? bytes (pos + 1)).findIdx? (· == ascii ';') with
      | none => return .error .unterminatedClass
      | some 0 => return .error .emptyClass
      | some length => return .ok (none, pos + length + 2)
    else
      match ofByte? b with
      | none => return .error .unknownType
      | some k => return .ok (some k, pos + 1)

/-- The field at a position, and the position behind it. -/
def scanField? (bytes : List UInt8) (pos : Nat) :
    Option (Except FieldFault (ParamKind × Nat)) := do
  let here ← from? bytes pos
  let dimensions := (here.takeWhile (· == ascii '[')).length
  if maxDimensions < dimensions then return .error .tooManyDimensions
  match ← scanBase? bytes (pos + dimensions) with
  | .error fault => return .error fault
  | .ok (base, next) => return .ok (fieldKind dimensions base, next)

/-- The fields up to the closing parenthesis, and the position behind it. -/
def scanParams? (bytes : List UInt8) (pos : Nat) :
    Option (Except DescriptorFault (List ParamKind × Nat)) :=
  match from? bytes pos with
  | none => none
  | some [] => some (.error .unterminatedParameters)
  | some (b :: _) =>
    if b = ascii ')' then some (.ok ([], pos + 1))
    else
      match scanField? bytes pos with
      | none => none
      | some (.error fault) => some (.error (.parameter pos fault))
      | some (.ok (k, next)) =>
        if pos < next ∧ next ≤ bytes.length then
          (scanParams? bytes next).map fun r => r.map fun (ks, after) => (k :: ks, after)
        else none
termination_by bytes.length - pos

def scanResult? (bytes : List UInt8) (pos : Nat) : Option (Except DescriptorFault ParamKind) := do
  if (← from? bytes pos) = [ascii 'V'] then return .ok .void
  match ← scanField? bytes pos with
  | .error fault => return .error (.result fault)
  | .ok (k, next) =>
    match ← from? bytes next with
    | [] => return .ok k
    | _ :: _ => return .error .trailing

def scan? (bytes : List UInt8) : Option (Except DescriptorFault Descriptor) := do
  if (← from? bytes 0).head? ≠ some (ascii '(') then return .error .noParameterList
  match ← scanParams? bytes 1 with
  | .error fault => return .error fault
  | .ok (params, pos) =>
    match ← scanResult? bytes pos with
    | .error fault => return .error fault
    | .ok result => return .ok ⟨params, result⟩

/-! ### Positions in a text -/

def offset (whole s : List Char) : Nat := byteLength whole - byteLength s

theorem offset_append {whole a s : List Char} (h : a ++ s <:+ whole) :
    offset whole s = offset whole (a ++ s) + byteLength a := by
  have hle := byteLength_le_of_isInfix h.isInfix
  rw [byteLength_append] at hle
  rw [offset, offset, byteLength_append]
  omega

theorem from?_offset {whole s : List Char} (h : s <:+ whole) :
    from? (encode whole) (offset whole s) = some (encode s) := by
  obtain ⟨a, rfl⟩ := h
  have hpos : offset (a ++ s) s = (encode a).length := by
    rw [offset, byteLength_append, length_encode]
    omega
  rw [from?, if_pos (by rw [hpos, encode_append, List.length_append]; omega), hpos, encode_append,
    List.drop_left]

theorem letter_lt (k : ElemKind) : k.letter.toNat < 128 := by cases k <;> decide

theorem ofByte?_eq {c : Char} {b : UInt8} (hb : b ∈ String.utf8EncodeChar c) :
    ofByte? b = ElemKind.ofLetter? c := by
  rw [ofByte?, ElemKind.ofLetter?]
  congr 1
  funext k
  have hk := eq_ascii_iff (letter_lt k) hb
  rw [Bool.eq_iff_iff, beq_iff_eq, beq_iff_eq, eq_comm, hk, eq_comm]

/-! ### Both readers find the same -/

variable {whole s : List Char}

/-- What a reader of texts finds, with the position of what is left in the whole text. -/
def placed {ε α : Type} (whole : List Char) : Except ε (α × List Char) → Except ε (α × Nat)
  | .error fault => .error fault
  | .ok (a, rest) => .ok (a, offset whole rest)

theorem offset_cons {c : Char} {r : List Char} (h : c :: r <:+ whole) :
    offset whole r = offset whole (c :: r) + c.utf8Size := by
  have happend := offset_append (a := [c]) h
  simpa [byteLength] using happend

/-- What follows a class name lies behind its letter, the name and its end. -/
theorem offset_class {name after : List Char} (h : 'L' :: (name ++ ';' :: after) <:+ whole) :
    offset whole after = offset whole ('L' :: (name ++ ';' :: after)) + byteLength name + 2 := by
  have hwhole : 'L' :: (name ++ ';' :: after) = ('L' :: name ++ [';']) ++ after := by simp
  have hsuffix : ('L' :: name ++ [';']) ++ after <:+ whole := hwhole ▸ h
  have hskip := offset_append hsuffix
  have hsizes : 'L'.utf8Size = 1 ∧ ';'.utf8Size = 1 := ⟨rfl, rfl⟩
  simp only [← hwhole, byteLength, byteLength_append] at hskip
  omega

theorem scanBase?_eq (h : s <:+ whole) :
    scanBase? (encode whole) (offset whole s) = some (placed whole (parseBase s)) := by
  cases s with
  | nil =>
    rw [scanBase?, from?_offset h]
    rfl
  | cons c r =>
    obtain ⟨b, bs, hbytes⟩ := exists_utf8EncodeChar_cons c
    have hmem : b ∈ String.utf8EncodeChar c := by simp [hbytes]
    have hr : r <:+ whole := (List.suffix_cons c r).trans h
    have hnext := offset_cons h
    rw [scanBase?, from?_offset h, encode_cons, hbytes]
    simp only [Option.bind_eq_bind, Option.bind_some, List.cons_append]
    by_cases hc : c = 'L'
    · subst hc
      have hone : offset whole ('L' :: r) + 1 = offset whole r := hnext.symm
      rw [if_pos ((eq_ascii_iff (by decide) hmem).2 rfl), hone, from?_offset hr, Option.bind_some,
        findIdx?_encode (by decide)]
      cases hcut : cut ';' r with
      | none => simp [parseBase, hcut, placed]
      | some parts =>
        obtain ⟨name, after⟩ := parts
        cases name with
        | nil => simp [parseBase, hcut, placed]
        | cons d name =>
          obtain ⟨hname, -⟩ := cut_eq_some_iff.1 hcut
          have hend : offset whole after =
              offset whole ('L' :: r) + byteLength (d :: name) + 2 := by
            rw [hname]
            exact offset_class (hname ▸ h)
          have hlength : ∃ n, byteLength (d :: name) = n + 1 :=
            Nat.exists_eq_succ_of_ne_zero (Nat.ne_of_gt (byteLength_pos_iff.2 (by simp)))
          obtain ⟨n, hn⟩ := hlength
          rw [hn] at hend
          simp [parseBase, hcut, placed, hn, hend]
    · rw [if_neg (mt (eq_ascii_iff (by decide) hmem).1 hc), ofByte?_eq hmem]
      cases hk : ElemKind.ofLetter? c with
      | none => simp [parseBase, hk, placed]
      | some k =>
        have hletter := ElemKind.ofLetter?_eq_some_iff.1 hk
        have hsize : c.utf8Size = 1 := by
          rw [← hletter]
          cases k <;> rfl
        rw [hsize] at hnext
        simp [parseBase, hk, placed, hnext]

theorem byteLength_replicate (n : Nat) : byteLength (List.replicate n '[') = n := by
  induction n with
  | zero => rfl
  | succ n ih =>
    rw [List.replicate_succ, byteLength, ih, Nat.add_comm]
    rfl

theorem scanField?_eq (h : s <:+ whole) :
    scanField? (encode whole) (offset whole s) = some (placed whole (parseField s)) := by
  have hdrop : s.dropWhile (· == '[') <:+ whole := (List.dropWhile_suffix _).trans h
  have hbrackets : offset whole s + (s.takeWhile (· == '[')).length =
      offset whole (s.dropWhile (· == '[')) := by
    have hsplit : s.takeWhile (· == '[') ++ s.dropWhile (· == '[') = s :=
      List.takeWhile_append_dropWhile
    have hrun : s.takeWhile (· == '[') = List.replicate (s.takeWhile (· == '[')).length '[' :=
      List.eq_replicate_of_mem fun c hc => by simpa using List.mem_takeWhile_imp hc
    have hsuffix : s.takeWhile (· == '[') ++ s.dropWhile (· == '[') <:+ whole := hsplit.symm ▸ h
    rw [offset_append hsuffix, hsplit, hrun, byteLength_replicate, List.length_replicate]
  rw [scanField?, from?_offset h]
  simp only [Option.bind_eq_bind, Option.bind_some,
    length_takeWhile_encode (a := '[') (by decide) s, hbrackets, scanBase?_eq hdrop]
  rw [parseField]
  split
  · rfl
  · cases parseBase (s.dropWhile (· == '[')) with
    | error fault => rfl
    | ok r => rfl

theorem suffix_of_parseField {rest : List Char} {k : ParamKind}
    (h : parseField s = .ok (k, rest)) : rest <:+ s ∧ byteLength rest < byteLength s := by
  obtain ⟨f, rfl, -⟩ := parseField_eq_ok_iff.1 h
  obtain ⟨c, r, hf, -⟩ := head_field f
  have hpos : 1 ≤ byteLength f.text := byteLength_pos_iff.2 (by simp [hf])
  refine ⟨List.suffix_append _ _, ?_⟩
  rw [byteLength_append]
  omega

/-- A position behind a field is ahead of it and not past the end, and both readers count it alike.
-/
theorem offset_of_parseField {pos : Nat} {rest : List Char} {k : ParamKind} (h : s <:+ whole)
    (hpos : pos = offset whole s) (hfield : parseField s = .ok (k, rest)) :
    pos + (byteLength s - byteLength rest) = offset whole rest ∧ pos < offset whole rest ∧
      offset whole rest ≤ (encode whole).length := by
  have hshorter := (suffix_of_parseField hfield).2
  have hle := byteLength_le_of_isInfix h.isInfix
  rw [hpos, offset, offset, length_encode]
  omega

theorem encode_eq_cons {c : Char} (hc : c ≠ ')') (r : List Char) :
    ∃ b bs, encode (c :: r) = b :: bs ∧ b ≠ ascii ')' := by
  obtain ⟨b, bs, hbytes⟩ := exists_utf8EncodeChar_cons c
  have hmem : b ∈ String.utf8EncodeChar c := by simp [hbytes]
  exact ⟨b, bs ++ encode r, by rw [encode_cons, hbytes, List.cons_append],
    mt (eq_ascii_iff (by decide) hmem).1 hc⟩

theorem scanParams?_eq {pos : Nat} (h : s <:+ whole) (hpos : pos = offset whole s) :
    scanParams? (encode whole) pos = some (placed whole (parseParams pos s)) := by
  -- Along the reader of texts: each case reads the same field at the position of what is left.
  induction pos, s using parseParams.induct with
  | case1 pos =>
    rw [scanParams?, hpos, from?_offset h, parseParams]
    rfl
  | case2 pos r =>
    have hnext := offset_cons h
    rw [scanParams?, hpos, from?_offset h, encode_cons, utf8EncodeChar_ascii (by decide),
      parseParams_close, placed, hnext]
    rfl
  | case3 pos c r hc fault hfield =>
    obtain ⟨b, bs, hbytes, hb⟩ := encode_eq_cons hc r
    have hscan := scanField?_eq h
    rw [hfield, ← hpos] at hscan
    rw [scanParams?, hpos, from?_offset h, hbytes, ← hpos, parseParams_field hc, hfield]
    simp only [hb, ↓reduceIte, hscan, placed]
  | case4 pos c r hc k after hfield _ next fault hparams =>
    rename_i ih
    obtain ⟨b, bs, hbytes, hb⟩ := encode_eq_cons hc r
    obtain ⟨hnext, hahead, hend⟩ := offset_of_parseField h hpos hfield
    have hscan := scanField?_eq h
    have hrest := ih ((suffix_of_parseField hfield).1.trans h) hnext
    simp only [next, hnext] at hparams hrest
    rw [hfield, ← hpos] at hscan
    rw [scanParams?, hpos, from?_offset h, hbytes, ← hpos, parseParams_field hc, hfield]
    simp only [hb, ↓reduceIte, hscan, placed, hahead, hend, and_self, hnext, hparams, hrest]
    rfl
  | case5 pos c r hc k after hfield _ next ks after' hparams =>
    rename_i ih
    obtain ⟨b, bs, hbytes, hb⟩ := encode_eq_cons hc r
    obtain ⟨hnext, hahead, hend⟩ := offset_of_parseField h hpos hfield
    have hscan := scanField?_eq h
    have hrest := ih ((suffix_of_parseField hfield).1.trans h) hnext
    simp only [next, hnext] at hparams hrest
    rw [hfield, ← hpos] at hscan
    rw [scanParams?, hpos, from?_offset h, hbytes, ← hpos, parseParams_field hc, hfield]
    simp only [hb, ↓reduceIte, hscan, placed, hahead, hend, and_self, hnext, hparams, hrest]
    rfl

theorem encode_eq_void_iff : encode s = [ascii 'V'] ↔ s = ['V'] := by
  constructor
  · intro h
    cases s with
    | nil => cases h
    | cons c r =>
      obtain ⟨b, bs, hbytes⟩ := exists_utf8EncodeChar_cons c
      rw [encode_cons, hbytes, List.cons_append, List.cons.injEq, List.append_eq_nil_iff] at h
      obtain ⟨hb, -, hr⟩ := h
      have hc := (eq_ascii_iff (a := 'V') (c := c) (by decide) (by simp [hbytes])).1 hb
      have hlength := congrArg List.length hr
      rw [length_encode, List.length_nil] at hlength
      cases r with
      | nil => rw [hc]
      | cons d r =>
        have hpos := byteLength_pos_iff.2 (List.cons_ne_nil d r)
        omega
  · rintro rfl
    rfl

theorem scanResult?_eq (h : s <:+ whole) :
    scanResult? (encode whole) (offset whole s) = some (parseResult s) := by
  rw [scanResult?, from?_offset h, scanField?_eq h, parseResult]
  simp only [Option.bind_eq_bind, Option.bind_some, encode_eq_void_iff]
  split
  · rfl
  · cases hfield : parseField s with
    | error fault => rfl
    | ok r =>
      obtain ⟨k, rest⟩ := r
      have hrest := from?_offset ((suffix_of_parseField hfield).1.trans h)
      simp only [placed, hrest, Option.bind_some]
      cases rest with
      | nil => rfl
      | cons c r =>
        obtain ⟨b, bs, hbytes⟩ := exists_utf8EncodeChar_cons c
        rw [encode_cons, hbytes]
        rfl

/-- Over the bytes of a text no position passes the end, and both readers find the same. -/
theorem scan?_utf8 (text : String) : scan? (utf8 text) = some (parse text) := by
  rw [utf8_eq_encode, scan?, parse]
  generalize text.toList = whole
  have hstart : from? (encode whole) 0 = some (encode whole) := by
    have hzero : offset whole whole = 0 := Nat.sub_self _
    rw [← hzero, from?_offset List.suffix_rfl]
  rw [hstart]
  cases whole with
  | nil => rfl
  | cons c r =>
    obtain ⟨b, bs, hbytes⟩ := exists_utf8EncodeChar_cons c
    have hb := eq_ascii_iff (a := '(') (c := c) (b := b) (by decide) (by simp [hbytes])
    by_cases hc : c = '('
    · subst hc
      have hr : r <:+ '(' :: r := List.suffix_cons '(' r
      have hone : 1 = offset ('(' :: r) r := by
        have hnext := offset_cons (List.suffix_refl ('(' :: r))
        rw [hnext, offset, Nat.sub_self]
        rfl
      have hopen : (encode ('(' :: r)).head? = some (ascii '(') := by
        rw [encode_cons, utf8EncodeChar_ascii (by decide)]
        rfl
      simp only [Option.bind_eq_bind, Option.bind_some, hopen, ne_eq, not_true_eq_false, ↓reduceIte,
        scanParams?_eq hr hone]
      cases hparams : parseParams 1 r with
      | error fault => rfl
      | ok p =>
        obtain ⟨ks, rest⟩ := p
        obtain ⟨fs, hfs, -⟩ := parseParams_eq_ok_iff.1 hparams
        have hrest : rest <:+ '(' :: r := by
          rw [hfs]
          exact ⟨'(' :: (fs.flatMap FieldType.text ++ [')']), by simp⟩
        simp only [placed, scanResult?_eq hrest, Option.bind_some]
        cases parseResult rest <;> rfl
    · have hclosed : (encode (c :: r)).head? ≠ some (ascii '(') := by
        rw [encode_cons, hbytes, List.cons_append, List.head?_cons, ne_eq, Option.some.injEq, hb]
        exact hc
      simp only [Option.bind_eq_bind, Option.bind_some, hclosed, ne_eq, not_false_eq_true,
        ↓reduceIte]
      split
      · rename_i hopen
        exact absurd (List.cons.inj hopen).1 hc
      · rfl

/-- A descriptor is read exactly if it has a decomposition into field types and a result, which is
unique and tells the kinds; and reading it never takes a position past its end. -/
theorem parse_exactly_grammar (text : String) :
    ((∃ d, parse text = .ok d) ↔ ∃! t : MethodType, t.text = text.toList) ∧
    (∀ t : MethodType, t.text = text.toList → parse text = .ok t.descriptor) ∧
    scan? (utf8 text) = some (parse text) := by
  refine ⟨⟨fun ⟨d, hd⟩ => ?_, fun ⟨t, ht, _⟩ => ?_⟩, fun t ht => ?_, scan?_utf8 text⟩
  · obtain ⟨t, ht, -⟩ := parse_eq_ok_iff.1 hd
    exact ⟨t, ht, fun t' ht' => text_injective (ht'.trans ht.symm)⟩
  · exact ⟨t.descriptor, parse_eq_ok_iff.2 ⟨t, ht, rfl⟩⟩
  · exact parse_eq_ok_iff.2 ⟨t, ht, rfl⟩

end AccelHost.Descriptor
