/-!
Binary floating-point numbers, given by their bits, in decimal with two places. The number is taken
exactly; what two places cannot hold is rounded to the nearest, a half to the even neighbour.
-/
namespace AccelHost.Number

/-- The widths of the fields of a binary format. -/
structure BinaryFormat where
  exponentBits : Nat
  fractionBits : Nat

def single : BinaryFormat := ⟨8, 23⟩

def double : BinaryFormat := ⟨11, 52⟩

/-- A magnitude: no number, no bound, or an exact quotient. -/
inductive Magnitude where
  | notANumber
  | infinite
  | quotient (num den : Nat)
deriving DecidableEq

namespace BinaryFormat

variable (f : BinaryFormat)

def isNegative (bits : Nat) : Bool := (bits >>> (f.exponentBits + f.fractionBits)) % 2 = 1

/-- The magnitude that some bits stand for. The smallest exponent has no implicit leading one. -/
def magnitude (bits : Nat) : Magnitude :=
  let fraction := bits % 1 <<< f.fractionBits
  let exponent := bits >>> f.fractionBits % 1 <<< f.exponentBits
  let unit := 1 <<< (f.exponentBits - 1) - 1 + f.fractionBits
  if exponent = 1 <<< f.exponentBits - 1 then
    if fraction = 0 then .infinite else .notANumber
  else
    let significand := if exponent = 0 then fraction else fraction + 1 <<< f.fractionBits
    let power := max exponent 1
    .quotient (significand <<< (power - unit)) (1 <<< (unit - power))

end BinaryFormat

/-- The integer nearest to a quotient, of two the even one. -/
def roundHalfEven (num den : Nat) : Nat :=
  let q := num / den
  let r := num % den
  if den < 2 * r ∨ (2 * r = den ∧ q % 2 = 1) then q + 1 else q

def Magnitude.text : Magnitude → String
  | .notANumber => "NaN"
  | .infinite => "inf"
  | .quotient num den =>
    let hundredths := roundHalfEven (num * 100) den
    let rest := hundredths % 100
    toString (hundredths / 100) ++ "." ++ toString (rest / 10) ++ toString (rest % 10)

/-- The number that some bits stand for, in decimal with two places. Zero keeps its sign. -/
def BinaryFormat.twoPlaces (f : BinaryFormat) (bits : Nat) : String :=
  let m := f.magnitude bits
  if f.isNegative bits && m != .notANumber then "-" ++ m.text else m.text

end AccelHost.Number
