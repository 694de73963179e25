import AccelHost.Proofs.FlagRuns

/-!
Texts written into buffers of native code. The bytes of a text are stored from the buffer's address
on, as many as leave room for one more, and a NUL behind them; no other byte of memory changes. What
is read from there is the longest beginning of the text that the buffer holds, up to the first NUL,
and the kit shows a text as it is if it has no NUL and is shorter than the buffer.
-/
namespace AccelHost

namespace Text

/-- How many bytes of a text are written into a buffer of some size. -/
def written (text : String) (size : Nat) : Nat := min (size - 1) (utf8 text).length

variable {text : String} {size : Nat}

theorem written_lt (text : String) (h : 0 < size) : written text size < size := by
  unfold written
  omega

theorem length_take_written (text : String) (size : Nat) :
    ((utf8 text).take (written text size)).length = written text size :=
  List.length_take_of_le (Nat.min_le_right _ _)

namespace Buffer

/-- The bytes of a buffer before and after a text is written into it: first bytes of the text, then
a NUL, then what was there before. -/
structure Takes (text : String) (before after : List UInt8) : Prop where
  length : after.length = before.length
  kept : ∀ i, written text before.length < i → after[i]? = before[i]?
  nul : after[written text before.length]? = some 0
  text : ∀ i, i < written text before.length → after[i]? = (utf8 text)[i]?

variable {before after after' : List UInt8} {b c : Buffer}

theorem Takes.unique (h : Takes text before after) (h' : Takes text before after') :
    after = after' := by
  refine List.ext_getElem? fun i => ?_
  rcases Nat.lt_trichotomy i (written text before.length) with hi | rfl | hi
  · rw [h.text i hi, h'.text i hi]
  · rw [h.nul, h'.nul]
  · rw [h.kept i hi, h'.kept i hi]

theorem Takes.ne_nil (h : Takes text before after) : before ≠ [] := by
  rintro rfl
  have hnil := List.eq_nil_of_length_eq_zero h.length
  have hnul := h.nul
  rw [hnil] at hnul
  cases hnul

theorem exists_takes (text : String) (h : before ≠ []) :
    ∃ after, (room before).write text = some (.room after) ∧ Takes text before after := by
  obtain ⟨x, rest, rfl⟩ := List.exists_cons_of_ne_nil h
  have hmin : written text (x :: rest).length = min (utf8 text).length rest.length :=
    Nat.min_comm _ _
  have hwrite : (room (x :: rest)).write text =
      some (.room ((utf8 text).take (written text (x :: rest).length) ++
        0 :: (x :: rest).drop (written text (x :: rest).length + 1))) := by
    rw [hmin]
    rfl
  have hlength := length_take_written text (x :: rest).length
  refine ⟨_, hwrite, length_write hwrite, fun i hi => ?_, ?_, fun i hi => ?_⟩
  · obtain ⟨j, rfl⟩ := Nat.exists_eq_add_of_lt hi
    rw [Nat.add_assoc, List.getElem?_append_right (by omega), hlength, Nat.add_sub_cancel_left,
      List.getElem?_cons_succ, List.getElem?_drop, Nat.add_assoc, Nat.add_comm 1 j]
  · rw [List.getElem?_append_right (by omega), hlength, Nat.sub_self, List.getElem?_cons_zero]
  · rw [List.getElem?_append_left (by omega), List.getElem?_take_of_lt hi]

theorem write_eq_some_iff : b.write text = some c ↔
    ∃ before after, b = .room before ∧ c = .room after ∧ Takes text before after := by
  constructor
  · intro h
    obtain ⟨hnull, hlength⟩ := exists_write_iff.1 ⟨c, h⟩
    cases b with
    | null n => exact absurd rfl (hnull n)
    | room before =>
      have hbefore : before ≠ [] := List.length_pos_iff.1 hlength
      obtain ⟨after, hwrite, htakes⟩ := exists_takes text hbefore
      rw [hwrite, Option.some.injEq] at h
      exact ⟨before, after, rfl, h.symm, htakes⟩
  · rintro ⟨before, after, rfl, rfl, htakes⟩
    obtain ⟨after', hwrite, htakes'⟩ := exists_takes text htakes.ne_nil
    rw [hwrite, htakes.unique htakes']

end Buffer

end Text

open Text

/-! ### Memory -/

abbrev ForeignMemory := Nat → UInt8

namespace ForeignMemory

variable (μ : ForeignMemory)

/-- Memory with some bytes stored one after another from an address on. -/
def store (a : Nat) (bytes : List UInt8) : ForeignMemory := fun x =>
  if h : a ≤ x ∧ x < a + bytes.length then bytes[x - a] else μ x

/-- Memory with a text stored at an address, as much of it as leaves room for the NUL behind it. -/
def storeText (a size : Nat) (text : String) : ForeignMemory :=
  (μ.store a ((utf8 text).take (written text size))).store (a + written text size) [0]

def load (a size : Nat) : List UInt8 := (List.range size).map fun i => μ (a + i)

/-- The buffer that an address and a size stand for. The address 0 is null. -/
def buffer (a size : Nat) : Buffer := if a = 0 then .null size else .room (μ.load a size)

variable {μ} {a size x i : Nat} {bytes : List UInt8} {text : String}

theorem store_of_outside (h : x < a ∨ a + bytes.length ≤ x) : μ.store a bytes x = μ x :=
  dif_neg (by omega)

theorem getElem?_eq_store (h : i < bytes.length) :
    bytes[i]? = some (μ.store a bytes (a + i)) := by
  have hinside : a ≤ a + i ∧ a + i < a + bytes.length := by omega
  rw [store, dif_pos hinside, List.getElem?_eq_getElem h]
  simp only [Nat.add_sub_cancel_left]

theorem storeText_of_outside (h : x < a ∨ a + written text size < x) :
    μ.storeText a size text x = μ x := by
  have hlength := length_take_written text size
  rw [storeText, store_of_outside, store_of_outside]
  · omega
  · rw [List.length_singleton]
    omega

@[simp] theorem length_load : (μ.load a size).length = size := by
  rw [load, List.length_map, List.length_range]

theorem getElem?_load (h : i < size) : (μ.load a size)[i]? = some (μ (a + i)) := by
  rw [load, List.getElem?_map, List.getElem?_range h, Option.map_some]

theorem takes_load (h : 0 < size) :
    Buffer.Takes text (μ.load a size) ((μ.storeText a size text).load a size) := by
  have hlt := written_lt text h
  have hlength := length_take_written text size
  refine ⟨by rw [length_load, length_load], fun i hi => ?_, ?_, fun i hi => ?_⟩
  · rw [length_load] at hi
    by_cases hsize : i < size
    · rw [getElem?_load hsize, getElem?_load hsize, storeText_of_outside (.inr (by omega))]
    · rw [List.getElem?_eq_none (by rw [length_load]; omega),
        List.getElem?_eq_none (by rw [length_load]; omega)]
  · have hnul : 0 < ([0] : List UInt8).length := by decide
    rw [length_load, getElem?_load hlt]
    exact (getElem?_eq_store hnul).symm
  · rw [length_load] at hi
    have htaken : i < ((utf8 text).take (written text size)).length := by omega
    rw [getElem?_load (by omega), storeText, store_of_outside (.inl (by omega)),
      ← getElem?_eq_store htaken, List.getElem?_take_of_lt hi]

theorem write_buffer (ha : a ≠ 0) (h : 0 < size) :
    (μ.buffer a size).write text = some ((μ.storeText a size text).buffer a size) := by
  rw [buffer, if_neg ha, buffer, if_neg ha, Buffer.write_eq_some_iff]
  exact ⟨_, _, rfl, rfl, takes_load h⟩

end ForeignMemory

/-! ### What is read -/

theorem Kit.result_vmVersion {m : Machine} {s : Session} {f : Flags} (n : Nested)
    (hs : m.scope? = some (s, f)) :
    (n.runCode Kit.vmVersion).result m = some (legible Kit.nameRoom s.vmVersion) := by
  obtain ⟨hcall, -⟩ := runCode_call n hs (.vmVersion (room nameRoom))
  have hanswer : (s.answer f (.vmVersion (room nameRoom))).1 =
      fillOne (some s.vmVersion) (room nameRoom) := rfl
  rw [vmVersion, runCode_bind, Work.result_bind, hcall, hanswer, filled?_fillOne _ (by decide)]
  rfl

/-- Texts are written into buffers exactly. A text is written if and only if the buffer is not null
and has room for a NUL, and then the buffer has the first bytes of the text, as many as leave room
for the NUL, the NUL behind them, and all other bytes as before. In memory these are two stores, of
the bytes from the address of the buffer on and of the NUL inside the buffer, and no byte before the
buffer, behind the NUL or behind the buffer changes. What is read back is the longest beginning of
the text for which the buffer has room, up to its first NUL; the kit shows the whole characters of
it, and U+FFFD for one that was cut. So it shows the text itself if that has no NUL and is shorter
than the buffer. In this way it tells versions and features, from buffers of 256 bytes, and
parameters, lists of them and flags, from buffers of 1025. -/
theorem texts_written_exactly :
    (∀ text (b : Buffer), (∃ c, b.write text = some c) ↔ (∀ n, b ≠ .null n) ∧ 0 < b.length) ∧
    (∀ text (b c : Buffer), b.write text = some c ↔
      ∃ before after, b = .room before ∧ c = .room after ∧ Buffer.Takes text before after) ∧
    (∀ text (μ : ForeignMemory) a size, a ≠ 0 → 0 < size →
      (μ.buffer a size).write text = some ((μ.storeText a size text).buffer a size) ∧
      written text size < size ∧
      ∀ x, x < a ∨ a + written text size < x → μ.storeText a size text x = μ x) ∧
    (∀ text (b c : Buffer), b.write text = some c →
      (∃ shown, (∀ p, p <+: shown ↔ p <+: utf8 text ∧ p.length ≤ b.length - 1) ∧
        c.content? = some (beforeNul shown)) ∧
      Kit.textOf c = legible b.length text) ∧
    (∀ size text, '\x00' ∉ text.toList → byteLength text.toList < size →
      legible size text = text) ∧
    ∀ (n : Nested) (m : Machine) s f, m.scope? = some (s, f) →
      (n.runCode Kit.vmVersion).result m = some (legible 256 s.vmVersion) ∧
      (∀ name, '\x00' ∉ name.toList →
        (n.runCode (Kit.flag name)).result m = (f.get? name).map (legible 1025)) ∧
      ∀ v, s.unit? = some v →
        (n.runCode (Kit.Env.unitInfo ⟨s.handle⟩)).result m =
          some ⟨legible 256 v.option.feature, legible 256 (v.option.version.getD ""),
            legible 1025 (v.option.rawParams.getD "")⟩ ∧
        ∀ key, '\x00' ∉ key.toList →
          (n.runCode (Kit.Env.param ⟨s.handle⟩ key)).result m =
            (v.option.param? key).map (legible 1025) := by
  refine ⟨fun text b => Buffer.exists_write_iff, fun text b c => Buffer.write_eq_some_iff,
    fun text μ a size ha hsize => ⟨ForeignMemory.write_buffer ha hsize, written_lt text hsize,
      fun x hx => ForeignMemory.storeText_of_outside hx⟩,
    fun text b c hwrite => ⟨⟨_, fun p => List.prefix_take_iff, Buffer.content?_of_write hwrite⟩,
      Kit.textOf_of_write hwrite⟩,
    fun size text hnul hshort => legible_eq_self hnul hshort,
    fun n m s f hs => ⟨Kit.result_vmVersion n hs,
      fun name hname => Kit.result_flag_legible n hs hname,
      fun v hv => ⟨Kit.result_unitInfo n hs hv, fun key hkey => Kit.result_param n hs hv hkey⟩⟩⟩

/-- A character is cut in the middle, and the byte behind the NUL stays. -/
example : (Buffer.room [0x7f, 0x7f, 0x7f]).write "aé" = some (.room [0x61, 0xc3, 0]) ∧
    (Buffer.room [0x7f, 0x7f, 0x7f]).write "a" = some (.room [0x61, 0, 0x7f]) ∧
    legible 3 "aé" = "a\uFFFD" := by
  decide +kernel

end AccelHost
