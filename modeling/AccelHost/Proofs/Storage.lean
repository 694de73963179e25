import AccelHost.Heap.Block
import Mathlib.Algebra.Group.Nat.Defs

/-!
What a block shows of what was put into it. Elements of every width lie side by side, lowest byte
first; an element that was written is read back, and no other is touched.
-/
namespace AccelHost

namespace ElemKind

def zero (k : ElemKind) : k.Val := k.ofWord 0

theorem toWord_lt (k : ElemKind) (v : k.Val) : (k.toWord v).toNat < 2 ^ (8 * k.size) := by
  cases k
  case boolean => cases v <;> simp [toWord, size]
  case byte => simpa [toWord, size] using (Int8.toUInt8 v).toNat_lt
  case char => simpa [toWord, size] using UInt16.toNat_lt v
  case short => simpa [toWord, size] using (Int16.toUInt16 v).toNat_lt
  case int => simpa [toWord, size] using (Int32.toUInt32 v).toNat_lt
  case long => simpa [toWord, size] using (Int64.toUInt64 v).toNat_lt
  case float => simpa [toWord, size] using UInt32.toNat_lt v
  case double => simpa [toWord, size] using UInt64.toNat_lt v

theorem size_le (k : ElemKind) : k.size ≤ 8 := by cases k <;> decide

end ElemKind

namespace Block

/-! ### Bytes of a number -/

theorem toNat_byteOf {w : UInt64} {i : Nat} (hi : i < 8) :
    (byteOf w i).toNat = w.toNat / 2 ^ (8 * i) % 256 := by
  have hshift : (UInt64.ofNat (8 * i)).toNat % 64 = 8 * i := by
    rw [UInt64.toNat_ofNat']
    omega
  rw [byteOf, UInt64.toNat_toUInt8, UInt64.toNat_shiftRight, hshift, Nat.shiftRight_eq_div_pow]

theorem toNat_littleEndian_succ {byte : Nat → UInt8} {offset n : Nat} (hn : n < 8)
    (hlt : (littleEndian byte (offset + 1) n).toNat < 2 ^ (8 * n)) :
    (littleEndian byte offset (n + 1)).toNat =
      (byte offset).toNat + 256 * (littleEndian byte (offset + 1) n).toNat := by
  have hfit : (littleEndian byte (offset + 1) n).toNat * 2 ^ 8 < 2 ^ 64 := by
    have hpow : 2 ^ (8 * n) ≤ 2 ^ 56 := Nat.pow_le_pow_right (by omega) (by omega)
    omega
  rw [littleEndian, UInt64.toNat_or, UInt64.toNat_shiftLeft]
  simp only [UInt8.toNat_toUInt64, UInt64.reduceToNat, Nat.reduceMod, Nat.shiftLeft_eq]
  rw [Nat.mod_eq_of_lt hfit, Nat.or_comm, Nat.mul_comm,
    ← Nat.two_pow_add_eq_or_of_lt (byte offset).toNat_lt, Nat.add_comm]

/-- The bytes of a number from some place on write what is left of it from there. -/
theorem toNat_littleEndian {byte : Nat → UInt8} {w : UInt64} {offset m n : Nat}
    (hbytes : ∀ j < n, byte (offset + j) = byteOf w (m + j)) (hmn : m + n ≤ 8) :
    (littleEndian byte offset n).toNat = w.toNat / 2 ^ (8 * m) % 2 ^ (8 * n) := by
  -- Along the bytes: the first is the lowest of what is left, and the rest writes what is left
  -- above it, which has room because all bytes are among the eight of a word.
  induction n generalizing offset m with
  | zero => simp [littleEndian, Nat.mod_one]
  | succ n ih =>
    have hfirst : (byte offset).toNat = w.toNat / 2 ^ (8 * m) % 256 := by
      have hbyte := hbytes 0 (by omega)
      rw [Nat.add_zero, Nat.add_zero] at hbyte
      rw [hbyte, toNat_byteOf (by omega)]
    have hrest : (littleEndian byte (offset + 1) n).toNat =
        w.toNat / 2 ^ (8 * m) / 256 % 2 ^ (8 * n) := by
      rw [ih (m := m + 1) (fun j hj => ?_) (by omega), Nat.div_div_eq_div_mul]
      · congr 2
        rw [Nat.mul_add, Nat.pow_add]
      · have hbyte := hbytes (j + 1) (by omega)
        rw [show offset + 1 + j = offset + (j + 1) by omega, hbyte]
        congr 1
        omega
    have hlt : (littleEndian byte (offset + 1) n).toNat < 2 ^ (8 * n) := by
      rw [hrest]
      exact Nat.mod_lt _ (Nat.two_pow_pos _)
    rw [toNat_littleEndian_succ (by omega) hlt, hfirst, hrest,
      show 8 * (n + 1) = 8 + 8 * n by omega, Nat.pow_add, Nat.mod_mul]

theorem load_eq {b : Block} {offset width : Nat} {w : UInt64}
    (hbytes : ∀ j < width, b.byte (offset + j) = byteOf w j) (hwidth : width ≤ 8)
    (hw : w.toNat < 2 ^ (8 * width)) : b.load offset width = w := by
  have hzero : ∀ j < width, b.byte (offset + j) = byteOf w (0 + j) := fun j hj => by
    rw [hbytes j hj, Nat.zero_add]
  apply UInt64.toNat_inj.1
  rw [load, toNat_littleEndian hzero (by omega)]
  simpa using Nat.mod_eq_of_lt hw

theorem load_congr {b b' : Block} {offset width : Nat}
    (hbytes : ∀ j < width, b'.byte (offset + j) = b.byte (offset + j)) :
    b'.load offset width = b.load offset width := by
  unfold load
  induction width generalizing offset with
  | zero => rfl
  | succ n ih =>
    have hfirst := hbytes 0 (by omega)
    have hrest : littleEndian b'.byte (offset + 1) n = littleEndian b.byte (offset + 1) n :=
      ih fun j hj => by
        have hbyte := hbytes (j + 1) (by omega)
        rwa [show offset + (j + 1) = offset + 1 + j by omega] at hbyte
    rw [Nat.add_zero] at hfirst
    rw [littleEndian, littleEndian, hfirst, hrest]

/-! ### Elements -/

variable {b : Block} {k : ElemKind}

theorem elements_zeroed (bytes n : Nat) :
    (zeroed bytes).elements k n = List.replicate n k.zero := by
  have helement : ∀ i, (zeroed bytes).element k i = k.zero := fun i => by
    have hload : (zeroed bytes).load (i * k.size) k.size = 0 :=
      load_eq (fun j _ => by simp [zeroed, byteOf]) k.size_le (Nat.two_pow_pos _)
    rw [element, hload, ElemKind.zero]
  rw [List.eq_replicate_iff]
  refine ⟨length_elements .., fun v hv => ?_⟩
  obtain ⟨i, _, rfl⟩ := List.mem_map.1 hv
  exact helement i

/-- The elements that are written are those read, and behind them nothing is different. -/
theorem element_overwrite {values : List k.Val} {i : Nat} :
    (b.overwrite k values).element k i = (values[i]?).getD (b.element k i) := by
  have hdiv : ∀ j < k.size, (i * k.size + j) / k.size = i := fun j hj => by
    rw [Nat.add_comm, Nat.add_mul_div_right _ _ k.size_pos, Nat.div_eq_of_lt hj, Nat.zero_add]
  have hmod : ∀ j < k.size, (i * k.size + j) % k.size = j := fun j hj => by
    rw [Nat.add_comm, Nat.add_mul_mod_self_right, Nat.mod_eq_of_lt hj]
  cases hv : values[i]? with
  | none =>
    have hbyte : ∀ j < k.size, (b.overwrite k values).byte (i * k.size + j) =
        b.byte (i * k.size + j) := fun j hj => by
      simp only [overwrite, hdiv j hj, List.getElem?_toArray, hv]
    rw [element, load_congr hbyte, Option.getD_none, element]
  | some v =>
    have hbyte : ∀ j < k.size, (b.overwrite k values).byte (i * k.size + j) =
        byteOf (k.toWord v) j := fun j hj => by
      simp only [overwrite, hdiv j hj, hmod j hj, List.getElem?_toArray, hv]
    rw [element, load_eq hbyte k.size_le (k.toWord_lt v), Option.getD_some, k.ofWord_toWord]

theorem elements_overwrite {values : List k.Val} {n : Nat} (hlen : values.length ≤ n) :
    (b.overwrite k values).elements k n = values ++ (b.elements k n).drop values.length := by
  apply List.ext_getElem?
  intro i
  by_cases hi : i < n
  · have hread : ((b.overwrite k values).elements k n)[i]? =
        some ((values[i]?).getD (b.element k i)) := by
      rw [← element_overwrite]
      simp [elements, hi]
    rw [hread]
    by_cases hv : i < values.length
    · simp [List.getElem?_append_left hv, hv]
    · rw [List.getElem?_append_right (by omega), List.getElem?_drop,
        show values.length + (i - values.length) = i by omega, List.getElem?_eq_none (by omega)]
      simp [elements, hi]
  · rw [List.getElem?_eq_none (by simp; omega), List.getElem?_eq_none (by simp; omega)]

/-- A field slot that is written is read back, and no other is touched. -/
theorem element_store {index i : Nat} {value : Int64} :
    (b.store (8 * index) 8 value.toUInt64).element .long i =
      if index = i then value else b.element .long i := by
  have hsize : ElemKind.size .long = 8 := rfl
  rw [element, element, hsize]
  by_cases he : index = i
  · have hbyte : ∀ j < 8, (b.store (8 * index) 8 value.toUInt64).byte (i * 8 + j) =
        byteOf value.toUInt64 j := fun j hj => by
      simp only [store]
      rw [if_pos (by omega), show i * 8 + j - 8 * index = j by omega]
    rw [if_pos he, load_eq hbyte (Nat.le_refl 8) (ElemKind.toWord_lt .long value)]
    exact ElemKind.ofWord_toWord .long value
  · have hbyte : ∀ j < 8, (b.store (8 * index) 8 value.toUInt64).byte (i * 8 + j) =
        b.byte (i * 8 + j) := fun j hj => by
      rcases Nat.lt_or_gt_of_ne he with hlt | hgt
      · exact store_byte_of_ge (by omega)
      · exact store_byte_of_lt (by omega)
    rw [if_neg he, load_congr hbyte]

theorem elements_store {n index : Nat} {value : Int64} :
    (b.store (8 * index) 8 value.toUInt64).elements .long n =
      (b.elements .long n).set index value := by
  apply List.ext_getElem
  · rw [List.length_set]
    exact (length_elements ..).trans (length_elements ..).symm
  · intro i _ _
    rw [List.getElem_set]
    simp only [elements, List.getElem_map, List.getElem_range]
    exact element_store

end Block

end AccelHost
