import AccelHost.Signature.Descriptor

/-!
Calling conventions: the native signature that an entry declares as a list of tags, the parameters
in order and one tag for the result.
-/
namespace AccelHost

inductive ConventionFault where
  | empty
  | unknownResult (tag : UInt8)
  | receiverResult
  | unknownParameter (tag : UInt8) (position : Nat)
  | voidParameter (position : Nat)
  | lateReceiver (position : Nat)
deriving DecidableEq

/-- How a convention can differ from the descriptor of its method. -/
inductive Mismatch where
  | count (declared actual : Nat)
  | parameter (position : Nat) (declared actual : ParamKind)
  | result (declared actual : ParamKind)
deriving DecidableEq

/-- A native signature. The receiver is not among the parameters. -/
structure Convention where
  hasReceiver : Bool
  params : List ParamKind
  result : ParamKind
deriving DecidableEq

def tagText (t : UInt8) : String := "0x" ++ String.ofList (Nat.toDigits 16 t.toNat)

namespace ConventionFault

def message : ConventionFault → String
  | empty => "empty calling convention"
  | unknownResult t => s!"unknown tag {tagText t}"
  | receiverResult => "implicit receiver in return position"
  | unknownParameter t i => s!"unknown tag {tagText t} at position {i}"
  | voidParameter i => s!"void in parameter position {i}"
  | lateReceiver i => s!"implicit receiver at position {i}, must be first"

end ConventionFault

namespace Mismatch

def message : Mismatch → String
  | count declared actual => s!"declares {declared} parameters, method has {actual}"
  | parameter i declared actual => s!"parameter {i} is {declared.text}, method has {actual.text}"
  | result declared actual => s!"returns {declared.text}, method returns {actual.text}"

end Mismatch

namespace Convention

/-- The parameters that some tags name, from a position on. -/
def paramsOfTags (position : Nat) : List UInt8 → Except ConventionFault (List ParamKind)
  | [] => .ok []
  | t :: rest =>
    match ParamKind.ofTag? t with
    | none => .error (.unknownParameter t position)
    | some .void => .error (.voidParameter position)
    | some .receiver => .error (.lateReceiver position)
    | some k =>
      match paramsOfTags (position + 1) rest with
      | .error fault => .error fault
      | .ok ks => .ok (k :: ks)

def resultOfTag (t : UInt8) : Except ConventionFault ParamKind :=
  match ParamKind.ofTag? t with
  | none => .error (.unknownResult t)
  | some .receiver => .error .receiverResult
  | some k => .ok k

/-- The signature that some tags declare. The tag of the result is looked at first. -/
def ofTags (tags : List UInt8) : Except ConventionFault Convention :=
  match tags.getLast? with
  | none => .error .empty
  | some last =>
    match resultOfTag last with
    | .error fault => .error fault
    | .ok result =>
      let start := tags.dropLast
      let hasReceiver := start.head?.bind ParamKind.ofTag? == some .receiver
      let rest := if hasReceiver then start.tail else start
      match paramsOfTags (if hasReceiver then 1 else 0) rest with
      | .error fault => .error fault
      | .ok params => .ok ⟨hasReceiver, params, result⟩

variable (c : Convention)

/-- The parameters in the order of the call, the receiver first. -/
def nativeParams : List ParamKind := if c.hasReceiver then .receiver :: c.params else c.params

def toTags : List UInt8 := c.nativeParams.map ParamKind.tag ++ [c.result.tag]

/-- How many managed values a call gives, the receiver among them. -/
def argCount : Nat := c.params.length + if c.hasReceiver then 1 else 0

theorem length_nativeParams : c.nativeParams.length = c.argCount := by
  unfold nativeParams argCount
  split <;> simp

/-- The first position at which two lists of kinds differ. -/
def firstDifference (position : Nat) :
    List ParamKind → List ParamKind → Option (Nat × ParamKind × ParamKind)
  | a :: as, b :: bs =>
    if a = b then firstDifference (position + 1) as bs else some (position, a, b)
  | _, _ => none

/-- How the signature differs from the kinds of a method, if it does. -/
def mismatch? (d : Descriptor) : Option Mismatch :=
  if c.params.length ≠ d.params.length then some (.count c.params.length d.params.length)
  else
    match firstDifference 0 c.params d.params with
    | some (i, declared, actual) => some (.parameter i declared actual)
    | none => if c.result = d.result then none else some (.result c.result d.result)

theorem firstDifference_eq_none_iff {i : Nat} {as bs : List ParamKind}
    (h : as.length = bs.length) : firstDifference i as bs = none ↔ as = bs := by
  induction as generalizing i bs with
  | nil => cases bs <;> simp_all [firstDifference]
  | cons a as ih =>
    cases bs with
    | nil => simp at h
    | cons b bs =>
      by_cases hab : a = b
      · simp [firstDifference, hab, ih (by simpa using h)]
      · simp [firstDifference, hab]

theorem mismatch?_eq_none_iff {d : Descriptor} :
    c.mismatch? d = none ↔ c.params = d.params ∧ c.result = d.result := by
  unfold mismatch?
  by_cases h : c.params.length = d.params.length
  · rw [if_neg (by simpa using h)]
    cases hf : firstDifference 0 c.params d.params with
    | none => simp [(firstDifference_eq_none_iff h).1 hf]
    | some p => simp [← firstDifference_eq_none_iff (i := 0) h, hf]
  · rw [if_pos h]
    simp only [reduceCtorEq, false_iff, not_and]
    exact fun e => absurd (congrArg List.length e) h

def text : String :=
  "(" ++ ", ".intercalate (c.nativeParams.map ParamKind.text) ++ ") -> " ++ c.result.text

end Convention

end AccelHost
