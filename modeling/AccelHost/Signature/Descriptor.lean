import AccelHost.Signature.Kind
import AccelHost.Text.Pieces

/-!
Method descriptors such as `(I[BLjava/lang/Object;S)V`: the kinds of the parameters between
parentheses and the kind of the result. Classes, arrays of references and arrays of arrays are all
plain objects to a native function.
-/
namespace AccelHost

/-- What is wrong with one field of a descriptor. -/
inductive FieldFault where
  | tooManyDimensions
  | missingType
  | unterminatedClass
  | emptyClass
  | unknownType
deriving DecidableEq

/-- What is wrong with a descriptor. Parameters are told by their offset in bytes. -/
inductive DescriptorFault where
  | noParameterList
  | parameter (offset : Nat) (fault : FieldFault)
  | unterminatedParameters
  | result (fault : FieldFault)
  | trailing
deriving DecidableEq

/-- The kinds that a method takes and gives. -/
structure Descriptor where
  params : List ParamKind
  result : ParamKind
deriving DecidableEq

namespace FieldFault

def message : FieldFault → String
  | tooManyDimensions => "more than 255 array dimensions"
  | missingType => "missing type"
  | unterminatedClass => "unterminated class name"
  | emptyClass => "empty class name"
  | unknownType => "unknown type"

end FieldFault

namespace DescriptorFault

def message (descriptor : String) : DescriptorFault → String
  | noParameterList => s!"descriptor `{descriptor}` must start with `(`"
  | parameter offset fault =>
    s!"malformed parameter at offset {offset} in `{descriptor}`: {fault.message}"
  | unterminatedParameters => s!"unterminated parameter list in `{descriptor}`"
  | result fault => s!"malformed return type in `{descriptor}`: {fault.message}"
  | trailing => s!"malformed return type in `{descriptor}`: trailing characters"

end DescriptorFault

namespace Descriptor

def maxDimensions : Nat := 255

/-- The kind of a field with so many dimensions over a primitive, or over a class. -/
def fieldKind : Nat → Option ElemKind → ParamKind
  | 0, some k => .prim k
  | 1, some k => .array k
  | _, _ => .object

/-- The type under the dimensions of a field, and what follows it. A class has no kind. -/
def parseBase : List Char → Except FieldFault (Option ElemKind × List Char)
  | [] => .error .missingType
  | 'L' :: rest =>
    match Text.cut ';' rest with
    | none => .error .unterminatedClass
    | some ([], _) => .error .emptyClass
    | some (_, after) => .ok (none, after)
  | c :: rest =>
    match ElemKind.ofLetter? c with
    | none => .error .unknownType
    | some k => .ok (some k, rest)

def parseField (s : List Char) : Except FieldFault (ParamKind × List Char) :=
  let dimensions := (s.takeWhile (· == '[')).length
  if maxDimensions < dimensions then .error .tooManyDimensions
  else
    match parseBase (s.dropWhile (· == '[')) with
    | .error fault => .error fault
    | .ok (base, rest) => .ok (fieldKind dimensions base, rest)

theorem parseBase_length {s rest : List Char} {k : Option ElemKind}
    (h : parseBase s = .ok (k, rest)) : rest.length < s.length := by
  unfold parseBase at h
  split at h
  · cases h
  · rename_i r
    split at h
    · cases h
    · cases h
    · rename_i a b hne hcut
      obtain ⟨rfl, -⟩ := Text.cut_eq_some_iff.1 hcut
      cases h
      simp only [List.length_cons, List.length_append]
      omega
  · split at h <;> cases h
    simp

theorem parseField_length {s rest : List Char} {k : ParamKind}
    (h : parseField s = .ok (k, rest)) : rest.length < s.length := by
  simp only [parseField] at h
  split at h
  · cases h
  · split at h
    · cases h
    · rename_i base r hb
      cases h
      have h1 := parseBase_length hb
      have h2 := (List.dropWhile_suffix (l := s) (· == '[')).length_le
      omega

/-- The fields up to the closing parenthesis, and what follows it. -/
def parseParams (offset : Nat) (s : List Char) :
    Except DescriptorFault (List ParamKind × List Char) :=
  match s with
  | [] => .error .unterminatedParameters
  | c :: r =>
    if c = ')' then .ok ([], r)
    else
      match h : parseField (c :: r) with
      | .error fault => .error (.parameter offset fault)
      | .ok (k, rest) =>
        have : rest.length < r.length + 1 := by simpa using parseField_length h
        let next := offset + (Text.byteLength (c :: r) - Text.byteLength rest)
        match parseParams next rest with
        | .error fault => .error fault
        | .ok (ks, after) => .ok (k :: ks, after)
termination_by s.length

def parseResult (s : List Char) : Except DescriptorFault ParamKind :=
  if s = ['V'] then .ok .void
  else
    match parseField s with
    | .error fault => .error (.result fault)
    | .ok (k, []) => .ok k
    | .ok _ => .error .trailing

def parse (descriptor : String) : Except DescriptorFault Descriptor :=
  match descriptor.toList with
  | '(' :: s =>
    match parseParams 1 s with
    | .error fault => .error fault
    | .ok (params, rest) =>
      match parseResult rest with
      | .error fault => .error fault
      | .ok result => .ok ⟨params, result⟩
  | _ => .error .noParameterList

end Descriptor

end AccelHost
