import AccelHost.Signature.Kind

/-!
Primitive values by kind, and the 64-bit words that hold them. A word shows a value in its low
bytes; what stands above them does not count.
-/
namespace AccelHost

/-- The values of a kind. Floats are their bits, and so keep every payload of a NaN. -/
abbrev ElemKind.Val : ElemKind → Type
  | .boolean => Bool
  | .byte => Int8
  | .char => UInt16
  | .short => Int16
  | .int => Int32
  | .long => Int64
  | .float => UInt32
  | .double => UInt64

namespace ElemKind

instance decidableEqVal : (k : ElemKind) → DecidableEq k.Val
  | .boolean => inferInstanceAs (DecidableEq Bool)
  | .byte => inferInstanceAs (DecidableEq Int8)
  | .char => inferInstanceAs (DecidableEq UInt16)
  | .short => inferInstanceAs (DecidableEq Int16)
  | .int => inferInstanceAs (DecidableEq Int32)
  | .long => inferInstanceAs (DecidableEq Int64)
  | .float => inferInstanceAs (DecidableEq UInt32)
  | .double => inferInstanceAs (DecidableEq UInt64)

/-- The word with the bits of a value in its low bytes and zeros above. -/
def toWord : (k : ElemKind) → k.Val → UInt64
  | .boolean, v => if v then 1 else 0
  | .byte, v => v.toUInt8.toUInt64
  | .char, v => v.toUInt64
  | .short, v => v.toUInt16.toUInt64
  | .int, v => v.toUInt32.toUInt64
  | .long, v => v.toUInt64
  | .float, v => v.toUInt64
  | .double, v => v

/-- The value in the low bytes of a word. Every low byte but zero is the boolean true. -/
def ofWord : (k : ElemKind) → UInt64 → k.Val
  | .boolean, w => w.toUInt8 != 0
  | .byte, w => w.toUInt8.toInt8
  | .char, w => w.toUInt16
  | .short, w => w.toUInt16.toInt16
  | .int, w => w.toUInt32.toInt32
  | .long, w => w.toInt64
  | .float, w => w.toUInt32
  | .double, w => w

/-- The word of a value as a native function widens it: signed kinds keep their sign. -/
def widen : (k : ElemKind) → k.Val → UInt64
  | .byte, v => v.toInt64.toUInt64
  | .short, v => v.toInt64.toUInt64
  | .int, v => v.toInt64.toUInt64
  | k, v => k.toWord v

theorem ofWord_toWord (k : ElemKind) (v : k.Val) : k.ofWord (k.toWord v) = v := by
  cases k
  case boolean => cases v <;> rfl
  all_goals simp [ofWord, toWord]

end ElemKind

end AccelHost
