import AccelHost.Element

/-!
Storage blocks: whole 64-bit words of bytes, read and written little-endian.
-/
namespace AccelHost

/-- Storage of a cell. Bytes beyond the elements are there up to the end of the last word. -/
structure Block where
  words : Nat
  byte : Nat → UInt8

namespace Block

/-- Zeros for so many bytes. A block has at least one word, so that it has an address of its own. -/
def zeroed (bytes : Nat) : Block := ⟨max 1 ((bytes + 7) / 8), fun _ => 0⟩

def size (b : Block) : Nat := 8 * b.words

/-- The number that some bytes write, the lowest first. -/
def littleEndian (byte : Nat → UInt8) (offset : Nat) : Nat → UInt64
  | 0 => 0
  | n + 1 => (byte offset).toUInt64 ||| littleEndian byte (offset + 1) n <<< 8

def byteOf (w : UInt64) (i : Nat) : UInt8 := (w >>> UInt64.ofNat (8 * i)).toUInt8

def load (b : Block) (offset width : Nat) : UInt64 := littleEndian b.byte offset width

def store (b : Block) (offset width : Nat) (w : UInt64) : Block :=
  { b with byte := fun i =>
      if offset ≤ i ∧ i < offset + width then byteOf w (i - offset) else b.byte i }

def element (b : Block) (k : ElemKind) (i : Nat) : k.Val := k.ofWord (b.load (i * k.size) k.size)

def elements (b : Block) (k : ElemKind) (n : Nat) : List k.Val := (List.range n).map (b.element k)

def overwrite (b : Block) (k : ElemKind) (values : List k.Val) : Block :=
  let a := values.toArray
  { b with byte := fun i =>
      match a[i / k.size]? with
      | some v => byteOf (k.toWord v) (i % k.size)
      | none => b.byte i }

@[simp] theorem words_store (b : Block) (o n : Nat) (w : UInt64) :
    (b.store o n w).words = b.words :=
  rfl

@[simp] theorem words_overwrite (b : Block) (k : ElemKind) (vs : List k.Val) :
    (b.overwrite k vs).words = b.words := rfl

theorem size_zeroed_pos (bytes : Nat) : 0 < (zeroed bytes).size := by
  simp only [size, zeroed]
  omega

theorem le_size_zeroed (bytes : Nat) : bytes ≤ (zeroed bytes).size := by
  simp only [size, zeroed]
  omega

theorem store_byte_of_lt {b : Block} {o n i : Nat} {w : UInt64} (h : i < o) :
    (b.store o n w).byte i = b.byte i := by
  simp only [store]
  rw [if_neg (by omega)]

theorem store_byte_of_ge {b : Block} {o n i : Nat} {w : UInt64} (h : o + n ≤ i) :
    (b.store o n w).byte i = b.byte i := by
  simp only [store]
  rw [if_neg (by omega)]

@[simp] theorem length_elements (b : Block) (k : ElemKind) (n : Nat) :
    (b.elements k n).length = n := by simp [elements]

end Block

end AccelHost
