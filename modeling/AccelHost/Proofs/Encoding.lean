import AccelHost.Text.Pieces
import AccelHost.Text.Terminated
import Mathlib.Data.List.TakeWhile

/-!
Characters among the bytes of a text. The byte of an ASCII character stands for that character
wherever it occurs, so what is looked for in the text may be looked for in its bytes.
-/
namespace AccelHost.Text

/-! ### The bytes of a text -/

theorem toList_loop (b : ByteArray) (i : Nat) (r : List UInt8) :
    ByteArray.toList.loop b i r = r.reverse ++ b.data.toList.drop i := by
  fun_induction ByteArray.toList.loop b i r with
  | case1 i r hlt ih =>
    have hi : i < b.data.toList.length := by simpa using hlt
    have hget : b.get! i = b.data.toList[i] := by
      rw [Array.getElem_toList]
      exact getElem!_pos b.data i (by simpa using hlt)
    rw [ih, List.drop_eq_getElem_cons hi, hget]
    simp
  | case2 i r hge =>
    have hlen : b.data.toList.length ≤ i := by simpa using hge
    rw [List.drop_eq_nil_of_le hlen, List.append_nil]

def encode (s : List Char) : List UInt8 := s.flatMap String.utf8EncodeChar

theorem utf8_eq_encode (s : String) : utf8 s = encode s.toList := by
  have hbytes : s.toByteArray = s.toList.utf8Encode := String.utf8Encode_toList.symm
  rw [utf8, String.toUTF8_eq_toByteArray, hbytes, ByteArray.toList, toList_loop]
  exact List.toList_data_toByteArray

@[simp] theorem encode_nil : encode [] = [] := rfl

@[simp] theorem encode_cons (c : Char) (s : List Char) :
    encode (c :: s) = String.utf8EncodeChar c ++ encode s := rfl

@[simp] theorem encode_append (a b : List Char) : encode (a ++ b) = encode a ++ encode b :=
  List.flatMap_append

theorem byteLength_le_of_isInfix {part whole : List Char} (h : part <:+: whole) :
    byteLength part ≤ byteLength whole := by
  obtain ⟨before, behind, rfl⟩ := h
  rw [byteLength_append, byteLength_append]
  omega

@[simp] theorem length_encode (s : List Char) : (encode s).length = byteLength s := by
  induction s with
  | nil => rfl
  | cons c r ih => simp [byteLength, ih]

/-! ### ASCII characters among them -/

def ascii (c : Char) : UInt8 := UInt8.ofNat c.toNat

theorem utf8EncodeChar_ascii {c : Char} (h : c.toNat < 128) :
    String.utf8EncodeChar c = [ascii c] := by
  have hsmall : c.val.toNat ≤ 127 := Nat.le_of_lt_succ h
  simp only [String.utf8EncodeChar, hsmall, ↓reduceIte]
  rfl

theorem high_of_mem_utf8EncodeChar {c : Char} (h : 128 ≤ c.toNat) {b : UInt8}
    (hb : b ∈ String.utf8EncodeChar c) : 128 ≤ b.toNat := by
  have hlarge : ¬ c.val.toNat ≤ 127 := Nat.not_le.2 h
  simp only [String.utf8EncodeChar, hlarge, ↓reduceIte] at hb
  split at hb
  · simp only [List.mem_cons, List.not_mem_nil, or_false] at hb
    rcases hb with rfl | rfl <;> rw [UInt8.toNat_ofNat'] <;> omega
  · split at hb
    · simp only [List.mem_cons, List.not_mem_nil, or_false] at hb
      rcases hb with rfl | rfl | rfl <;> rw [UInt8.toNat_ofNat'] <;> omega
    · simp only [List.mem_cons, List.not_mem_nil, or_false] at hb
      rcases hb with rfl | rfl | rfl | rfl <;> rw [UInt8.toNat_ofNat'] <;> omega

theorem toNat_ascii {a : Char} (ha : a.toNat < 128) : (ascii a).toNat = a.toNat := by
  rw [ascii, UInt8.toNat_ofNat']
  omega

theorem ascii_inj {a c : Char} (ha : a.toNat < 128) (hc : c.toNat < 128) :
    ascii c = ascii a ↔ c = a := by
  constructor
  · intro h
    have hnat := congrArg UInt8.toNat h
    rw [toNat_ascii hc, toNat_ascii ha] at hnat
    exact Char.ext (UInt32.toNat_inj.1 hnat)
  · rintro rfl
    rfl

/-- Among the bytes of a character the byte of an ASCII character is that character. -/
theorem eq_ascii_iff {a c : Char} (ha : a.toNat < 128) {b : UInt8}
    (hb : b ∈ String.utf8EncodeChar c) : b = ascii a ↔ c = a := by
  by_cases hc : c.toNat < 128
  · rw [utf8EncodeChar_ascii hc, List.mem_singleton] at hb
    rw [hb, ascii_inj ha hc]
  · have hhigh := high_of_mem_utf8EncodeChar (Nat.not_lt.1 hc) hb
    constructor
    · rintro rfl
      rw [toNat_ascii ha] at hhigh
      omega
    · rintro rfl
      exact absurd ha hc

theorem exists_utf8EncodeChar_cons (c : Char) : ∃ b bs, String.utf8EncodeChar c = b :: bs := by
  cases h : String.utf8EncodeChar c with
  | nil =>
    have hlen := String.length_utf8EncodeChar c
    have hpos := c.utf8Size_pos
    rw [h, List.length_nil] at hlen
    omega
  | cons b bs => exact ⟨b, bs, rfl⟩

theorem length_takeWhile_encode {a : Char} (ha : a.toNat < 128) (s : List Char) :
    ((encode s).takeWhile (· == ascii a)).length = (s.takeWhile (· == a)).length := by
  induction s with
  | nil => rfl
  | cons c r ih =>
    by_cases hc : c = a
    · subst hc
      simp [utf8EncodeChar_ascii ha, ih]
    · obtain ⟨b, bs, hbytes⟩ := exists_utf8EncodeChar_cons c
      have hb : b ≠ ascii a := by
        rw [ne_eq, eq_ascii_iff ha (c := c) (by simp [hbytes])]
        exact hc
      simp [hbytes, hb, hc]

/-- An ASCII character is first found in the bytes behind those of the text before it. -/
theorem findIdx?_encode {a : Char} (ha : a.toNat < 128) (s : List Char) :
    (encode s).findIdx? (· == ascii a) = (cut a s).map fun parts => byteLength parts.1 := by
  induction s with
  | nil => rfl
  | cons c r ih =>
    by_cases hc : c = a
    · subst hc
      simp [utf8EncodeChar_ascii ha, cut, List.findIdx?_cons]
    · have hnone : (String.utf8EncodeChar c).findIdx? (· == ascii a) = none := by
        refine List.findIdx?_eq_none_iff.2 fun b hb => ?_
        rw [beq_eq_false_iff_ne, ne_eq, eq_ascii_iff ha hb]
        exact hc
      rw [encode_cons, List.findIdx?_append, hnone, ih, cut, if_neg hc]
      cases cut a r with
      | none => rfl
      | some parts =>
        simp only [Option.map_some, Option.none_or, String.length_utf8EncodeChar, byteLength]
        rw [Nat.add_comm]

/-! ### Texts that native code holds -/

theorem decodeUtf8_utf8 (s : String) : decodeUtf8 (utf8 s) = some s := by
  have hbytes : (utf8 s).toByteArray = s.toByteArray := by
    rw [utf8_eq_encode]
    exact String.utf8Encode_toList
  rw [decodeUtf8, hbytes, String.fromUTF8?, dif_pos s.isValidUTF8]
  rfl

theorem decodeUtf8_eq_some_iff {bytes : List UInt8} {s : String} :
    decodeUtf8 bytes = some s ↔ bytes = utf8 s := by
  constructor
  · intro h
    unfold decodeUtf8 String.fromUTF8? at h
    split at h
    · cases h
      show bytes = (String.fromUTF8 bytes.toByteArray _).toByteArray.toList
      rw [ByteArray.toList, toList_loop]
      exact List.toList_data_toByteArray.symm
    · cases h
  · rintro rfl
    exact decodeUtf8_utf8 s

theorem utf8_injective : Function.Injective utf8 := by
  intro s s' h
  have hs := decodeUtf8_utf8 s
  rw [h, decodeUtf8_utf8 s', Option.some.injEq] at hs
  exact hs.symm

theorem nul_not_mem_encode {s : List Char} (h : '\x00' ∉ s) : 0 ∉ encode s := by
  intro hm
  obtain ⟨c, hc, hb⟩ := List.mem_flatMap.1 hm
  have hnul : c = '\x00' := (eq_ascii_iff (a := '\x00') (by decide) hb).1 rfl
  exact h (hnul ▸ hc)

theorem read_ofString {s : String} (h : '\x00' ∉ s.toList) :
    (ForeignText.ofString s).read = some s := by
  have hnul : 0 ∉ utf8 s := by
    rw [utf8_eq_encode]
    exact nul_not_mem_encode h
  have hall : beforeNul (utf8 s) = utf8 s := by
    apply List.takeWhile_eq_self_iff.2
    intro b hb
    have hne : b ≠ 0 := fun heq => hnul (heq ▸ hb)
    simpa using hne
  show decodeUtf8 (beforeNul (utf8 s)) = some s
  rw [hall, decodeUtf8_utf8]

end AccelHost.Text
