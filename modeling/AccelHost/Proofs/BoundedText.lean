import AccelHost.Kit
import AccelHost.Proofs.Encoding

/-!
Texts that are handed over in buffers. A buffer shows the beginning of a text, up to its first NUL
and in whole characters, as far as it has room for them. A text that is shorter than its buffer
comes through as it is up to its first NUL, whatever characters it has. So nothing is lost of a text
without one.
-/
namespace AccelHost

namespace Text

variable {n : Nat} {s : String} {cs ds : List Char}

/-! ### Up to a NUL -/

def untilNul (s : String) : String := String.ofList (s.toList.takeWhile (· ≠ '\x00'))

theorem untilNul_eq_self (h : '\x00' ∉ s.toList) : untilNul s = s := by
  have hall : s.toList.takeWhile (· ≠ '\x00') = s.toList := by
    apply List.takeWhile_eq_self_iff.2
    intro c hc
    have hne : c ≠ '\x00' := fun heq => h (heq ▸ hc)
    simpa using hne
  rw [untilNul, hall, String.ofList_toList]

theorem beforeNul_encode (s : List Char) :
    beforeNul (encode s) = encode (s.takeWhile (· ≠ '\x00')) := by
  induction s with
  | nil => rfl
  | cons c rest ih =>
    by_cases hc : c = '\x00'
    · subst hc
      rfl
    · have hbytes : ∀ b ∈ String.utf8EncodeChar c, (b ≠ 0 : Bool) = true := by
        intro b hb
        have hnul : b = 0 ↔ c = '\x00' := eq_ascii_iff (a := '\x00') (by decide) hb
        simpa [hnul] using hc
      have hkept : (c :: rest).takeWhile (· ≠ '\x00') = c :: rest.takeWhile (· ≠ '\x00') := by
        simp [hc]
      rw [hkept, encode_cons, encode_cons, beforeNul, List.takeWhile_append_of_pos hbytes, ← ih]
      rfl

theorem beforeNul_utf8 (s : String) : beforeNul (utf8 s) = utf8 (untilNul s) := by
  rw [utf8_eq_encode, utf8_eq_encode, untilNul, String.toList_ofList, beforeNul_encode]

theorem beforeNul_take (bytes : List UInt8) (n : Nat) :
    beforeNul (bytes.take n) = (beforeNul bytes).take n := by
  induction bytes generalizing n with
  | nil => simp [beforeNul]
  | cons b bytes ih =>
    cases n with
    | zero => simp [beforeNul]
    | succ n =>
      by_cases hb : b = 0
      · subst hb
        rfl
      · simpa [beforeNul, hb] using ih n

theorem length_utf8 (s : String) : (utf8 s).length = byteLength s.toList := by
  rw [utf8_eq_encode, length_encode]

/-! ### Cut at a byte -/

/-- What is taken of a text is the longest beginning that so many bytes hold. -/
theorem prefix_takeBytes_iff : ds <+: takeBytes n cs ↔ ds <+: cs ∧ byteLength ds ≤ n := by
  induction cs generalizing n ds with
  | nil =>
    rw [takeBytes]
    refine ⟨fun h => ⟨h, ?_⟩, And.left⟩
    rw [List.prefix_nil.1 h]
    exact Nat.zero_le n
  | cons c rest ih =>
    cases ds with
    | nil => simp
    | cons d ds =>
      rw [takeBytes]
      split
      · rename_i hfits
        rw [List.cons_prefix_cons, List.cons_prefix_cons, ih, byteLength]
        constructor
        · rintro ⟨rfl, hbegins, hle⟩
          exact ⟨⟨rfl, hbegins⟩, by omega⟩
        · rintro ⟨⟨rfl, hbegins⟩, hle⟩
          exact ⟨rfl, hbegins, by omega⟩
      · rename_i hcut
        refine iff_of_false (by simp) ?_
        rintro ⟨hbegins, hle⟩
        obtain ⟨rfl, -⟩ := List.cons_prefix_cons.1 hbegins
        rw [byteLength] at hle
        omega

theorem takeBytes_begins (n : Nat) (cs : List Char) : takeBytes n cs <+: cs :=
  (prefix_takeBytes_iff.1 (List.prefix_refl _)).1

theorem byteLength_takeBytes_le (n : Nat) (cs : List Char) :
    byteLength (takeBytes n cs) ≤ min n (byteLength cs) :=
  Nat.le_min.2 ⟨(prefix_takeBytes_iff.1 (List.prefix_refl _)).2,
    byteLength_le_of_isInfix (takeBytes_begins n cs).isInfix⟩

theorem takeBytes_of_le (h : byteLength cs ≤ n) : takeBytes n cs = cs :=
  (takeBytes_begins n cs).eq_of_length_le
    (prefix_takeBytes_iff.2 ⟨List.prefix_refl cs, h⟩).length_le

theorem min_lt_byteLength_takeBytes (n : Nat) (cs : List Char) :
    min n (byteLength cs) < byteLength (takeBytes n cs) + 4 := by
  induction cs generalizing n with
  | nil => simp [takeBytes]
  | cons c rest ih =>
    have hfour := c.utf8Size_le_four
    rw [takeBytes]
    split
    · have hrest := ih (n - c.utf8Size)
      simp only [byteLength]
      omega
    · simp only [byteLength]
      omega

theorem begins_of_encode (h : encode ds <+: encode cs) : ds <+: cs := by
  obtain ⟨rest, h⟩ := h
  refine List.isPrefix_of_utf8Encode_append_eq_utf8Encode rest.toByteArray ?_
  have hbytes : (encode ds ++ rest).toByteArray = (encode cs).toByteArray := by rw [h]
  rwa [List.toByteArray_append] at hbytes

theorem decodeUtf8_take_takeBytes (n : Nat) (s : String) :
    decodeUtf8 ((utf8 s).take (byteLength (takeBytes n s.toList))) =
      some (String.ofList (takeBytes n s.toList)) := by
  obtain ⟨rest, hrest⟩ := takeBytes_begins n s.toList
  have hencode := congrArg encode hrest
  rw [encode_append] at hencode
  rw [decodeUtf8_eq_some_iff, utf8_eq_encode, utf8_eq_encode, String.toList_ofList, ← hencode,
    ← length_encode, List.take_left]

/-- With some bytes more, but not as many as do not fit, they are none. -/
theorem decodeUtf8_take_eq_none {m : Nat} (hmore : byteLength (takeBytes n s.toList) < m)
    (hm : m ≤ min n (byteLength s.toList)) : decodeUtf8 ((utf8 s).take m) = none := by
  rw [Option.eq_none_iff_forall_ne_some]
  intro text htext
  rw [decodeUtf8_eq_some_iff, utf8_eq_encode, utf8_eq_encode] at htext
  have hsize := congrArg List.length htext
  rw [List.length_take, length_encode, length_encode] at hsize
  have hbegins := begins_of_encode (htext ▸ List.take_prefix m (encode s.toList))
  have hlonger : text.toList <+: takeBytes n s.toList :=
    prefix_takeBytes_iff.2 ⟨hbegins, by omega⟩
  have hshort := byteLength_le_of_isInfix hlonger.isInfix
  omega

/-- Bytes are read as the text that most of them encode, with U+FFFD for the last of them if they
are at most three. -/
theorem decodeCut_eq {bytes : List UInt8} {text : String} {left : Nat} (hleft : left < 4)
    (hread : decodeUtf8 (bytes.take (bytes.length - left)) = some text)
    (hcut : ∀ k < left, decodeUtf8 (bytes.take (bytes.length - k)) = none) :
    decodeCut bytes = text ++ if left = 0 then "" else "\uFFFD" := by
  have hsplit : [0, 1, 2, 3] = List.range left ++ List.range' left (4 - left) := by
    obtain rfl | rfl | rfl | rfl : left = 0 ∨ left = 1 ∨ left = 2 ∨ left = 3 := by omega
    all_goals rfl
  have hnone : ∀ k ∈ List.range left, (decodeUtf8 (bytes.take (bytes.length - k))).map
      (· ++ if k = 0 then "" else "\uFFFD") = none := by
    intro k hk
    rw [hcut k (List.mem_range.1 hk), Option.map_none]
  obtain ⟨m, hm⟩ : ∃ m, 4 - left = m + 1 := Nat.exists_eq_succ_of_ne_zero (by omega)
  rw [decodeCut, hsplit, hm, List.range'_succ, List.filterMap_append,
    List.filterMap_eq_nil_iff.2 hnone, List.nil_append, List.filterMap_cons, hread]
  rfl

/-- Of a text that is cut at a byte the whole characters are read, and U+FFFD for what is left of
one more. -/
theorem decodeCut_take (n : Nat) (s : String) : decodeCut ((utf8 s).take n) =
    String.ofList (takeBytes n s.toList) ++
      if byteLength (takeBytes n s.toList) < min n (byteLength s.toList) then "\uFFFD" else "" := by
  have hlength : ((utf8 s).take n).length = min n (byteLength s.toList) := by
    rw [List.length_take, length_utf8]
  have hle := byteLength_takeBytes_le n s.toList
  have hlt := min_lt_byteLength_takeBytes n s.toList
  have htake (m : Nat) (hm : m ≤ min n (byteLength s.toList)) :
      ((utf8 s).take n).take m = (utf8 s).take m := by
    rw [List.take_take, Nat.min_eq_left (by omega)]
  let left := min n (byteLength s.toList) - byteLength (takeBytes n s.toList)
  have hcut : decodeCut ((utf8 s).take n) =
      String.ofList (takeBytes n s.toList) ++ if left = 0 then "" else "\uFFFD" := by
    refine decodeCut_eq (by omega) ?_ fun k hk => ?_
    · rw [hlength, Nat.sub_sub_self hle, htake _ hle, decodeUtf8_take_takeBytes]
    · rw [hlength, htake _ (Nat.sub_le _ _)]
      exact decodeUtf8_take_eq_none (by omega) (Nat.sub_le _ _)
  rw [hcut]
  congr 1
  by_cases hleft : left = 0
  · rw [if_pos hleft, if_neg (by omega)]
  · rw [if_neg hleft, if_pos (by omega)]

/-! ### What a buffer shows -/

/-- What a buffer of some size shows of a text: the characters before its first NUL, as many as fit
before that of the buffer, and U+FFFD if one more was cut. -/
def legible (size : Nat) (s : String) : String :=
  let shown := takeBytes (size - 1) (untilNul s).toList
  String.ofList shown ++
    if byteLength shown < min (size - 1) (byteLength (untilNul s).toList) then "\uFFFD" else ""

theorem untilNul_begins (s : String) : (untilNul s).toList <+: s.toList := by
  rw [untilNul, String.toList_ofList]
  exact List.takeWhile_prefix _

theorem legible_of_lt {size : Nat} (h : byteLength s.toList < size) :
    legible size s = untilNul s := by
  have hle := byteLength_le_of_isInfix (untilNul_begins s).isInfix
  have hall : takeBytes (size - 1) (untilNul s).toList = (untilNul s).toList :=
    takeBytes_of_le (by omega)
  rw [legible, hall, if_neg (by omega), String.ofList_toList]
  exact String.append_empty

theorem legible_eq_self {size : Nat} (hnul : '\x00' ∉ s.toList) (h : byteLength s.toList < size) :
    legible size s = s := by
  rw [legible_of_lt h, untilNul_eq_self hnul]

namespace Buffer

variable {b c : Buffer}

theorem exists_write_iff : (∃ c, b.write s = some c) ↔ (∀ n, b ≠ .null n) ∧ 0 < b.length := by
  rw [← Option.ne_none_iff_exists', Ne, write_eq_none_iff]
  rcases b with n | bytes <;> simp [length, List.length_pos_iff]

/-- What is read of a text from the buffer that it was written into: its beginning, as long as the
buffer has room for it before the NUL, up to the first NUL of its own. -/
theorem content?_of_write (h : b.write s = some c) :
    c.content? = some (beforeNul ((utf8 s).take (b.length - 1))) := by
  rcases b with k | _ | ⟨x, rest⟩
  · cases h
  · cases h
  · cases h
    have hnul : 0 ∈ (utf8 s).take (min (utf8 s).length rest.length) ++
        0 :: (x :: rest).drop (min (utf8 s).length rest.length + 1) := by simp
    have hmin : (utf8 s).take (min (utf8 s).length rest.length) = (utf8 s).take rest.length := by
      rw [Nat.min_comm, ← List.take_take, List.take_length]
    rw [content?, if_pos hnul, beforeNul_append, hmin]
    rfl

end Buffer

end Text

namespace Kit

open Text

theorem foreign?_eq_some_iff {s : String} {t : ForeignText} :
    foreign? s = some t ↔ '\x00' ∉ s.toList ∧ t = .ofString s := by
  unfold foreign?
  split <;> simp_all [eq_comm]

theorem textOf_of_write {s : String} {b c : Buffer} (h : b.write s = some c) :
    textOf c = legible b.length s := by
  rw [textOf, Buffer.content?_of_write h, Option.getD_some, beforeNul_take, beforeNul_utf8,
    decodeCut_take]
  rfl

theorem exists_write_room (s : String) {size : Nat} (h : 0 < size) :
    ∃ b, (room size).write s = some b ∧ textOf b = legible size s := by
  have hlength : (room size).length = size := List.length_replicate
  obtain ⟨b, hb⟩ : ∃ b, (room size).write s = some b :=
    Buffer.exists_write_iff.2 ⟨fun n => by simp [room], by rwa [hlength]⟩
  have htext := textOf_of_write hb
  rw [hlength] at htext
  exact ⟨b, hb, htext⟩

theorem writeOptional_room (s : String) (size : Nat) :
    (room size).writeOptional s = (room size).write s := rfl

theorem filled?_fillOne (s : String) {size : Nat} (h : 0 < size) :
    filled? (fillOne (some s) (room size)) = some [legible size s] := by
  obtain ⟨b, hwritten, htext⟩ := exists_write_room s h
  simp only [fillOne, Option.bind_some, hwritten, filled?, ↓reduceIte, List.map_cons, htext,
    List.map_nil]

theorem fillEach_rooms {texts : List (String × Nat)} (h : ∀ p ∈ texts, 0 < p.2) :
    ∃ buffers, fillEach (texts.map fun p => (p.1, room p.2)) = (true, buffers) ∧
      buffers.map textOf = texts.map fun p => legible p.2 p.1 := by
  induction texts with
  | nil => exact ⟨[], rfl, rfl⟩
  | cons p rest ih =>
    obtain ⟨hfirst, hrest⟩ := List.forall_mem_cons.1 h
    obtain ⟨b, hwritten, htext⟩ := exists_write_room p.1 hfirst
    obtain ⟨buffers, hfilled, htexts⟩ := ih hrest
    refine ⟨b :: buffers, ?_, ?_⟩
    · simp only [List.map_cons, fillEach, writeOptional_room, hwritten, hfilled]
    · rw [List.map_cons, List.map_cons, htext, htexts]

end Kit

end AccelHost
