/-!
Texts that cross the boundary to native code: bytes that a NUL ends, read from outside or written
into a buffer of the caller.
-/
namespace AccelHost.Text

def utf8 (s : String) : List UInt8 := s.toUTF8.toList

def decodeUtf8 (bytes : List UInt8) : Option String := String.fromUTF8? bytes.toByteArray

/-- The text that begins some bytes. What is left of a character that was cut shows as U+FFFD. -/
def decodeCut (bytes : List UInt8) : String :=
  let cuts := [0, 1, 2, 3].filterMap fun n =>
    (decodeUtf8 (bytes.take (bytes.length - n))).map (· ++ if n = 0 then "" else "\uFFFD")
  cuts.head?.getD "\uFFFD"

/-- A text given by native code: no address, or bytes up to a NUL. -/
inductive ForeignText where
  | null
  | bytes (content : List UInt8)
deriving DecidableEq

def beforeNul (bytes : List UInt8) : List UInt8 := bytes.takeWhile (· ≠ 0)

/-- A text of ours, as native code holds it: its first NUL ends it. -/
def ForeignText.ofString (s : String) : ForeignText := .bytes (utf8 s)

def ForeignText.read : ForeignText → Option String
  | .null => none
  | .bytes b => decodeUtf8 (beforeNul b)

/-- A buffer that native code offers for a text. A null buffer has a length all the same. -/
inductive Buffer where
  | null (length : Nat)
  | room (bytes : List UInt8)
deriving DecidableEq

namespace Buffer

/-- Writes as much of a text as leaves room for the NUL after it. Fails without room for the NUL. -/
def write (text : String) : Buffer → Option Buffer
  | .null _ => none
  | .room [] => none
  | .room (b :: rest) =>
    let n := min (utf8 text).length rest.length
    some (.room ((utf8 text).take n ++ 0 :: (b :: rest).drop (n + 1)))

def writeOptional (text : String) : Buffer → Option Buffer
  | .null n => some (.null n)
  | b => b.write text

def content? : Buffer → Option (List UInt8)
  | .null _ => none
  | .room b => if 0 ∈ b then some (beforeNul b) else none

def length : Buffer → Nat
  | .null n => n
  | .room b => b.length

theorem write_eq_none_iff {text : String} {b : Buffer} :
    b.write text = none ↔ b = .room [] ∨ ∃ n, b = .null n := by
  rcases b with n | _ | ⟨x, r⟩ <;> simp [write]

theorem length_write {text : String} {b c : Buffer} (h : b.write text = some c) :
    c.length = b.length := by
  rcases b with n | _ | ⟨x, r⟩
  · simp [write] at h
  · simp [write] at h
  · simp only [write, Option.some.injEq] at h
    subst h
    simp only [length, List.length_append, List.length_take, List.length_cons, List.length_drop]
    omega

end Buffer

theorem beforeNul_append (bytes rest : List UInt8) :
    beforeNul (bytes ++ 0 :: rest) = beforeNul bytes := by
  induction bytes with
  | nil => rfl
  | cons b bytes ih =>
    by_cases hb : b = 0
    · subst hb
      rfl
    · simpa [beforeNul, hb] using ih

end AccelHost.Text
