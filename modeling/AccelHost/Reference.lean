import AccelHost.Signature.Kind

/-!
References to heap cells, and the kinds of cells.
-/
namespace AccelHost

/-- A slot of the heap, in one generation of its use. -/
structure ObjRef where
  index : Nat
  generation : UInt32
deriving DecidableEq

namespace ObjRef

def text (r : ObjRef) : String :=
  if r.generation = 0 then s!"@{r.index}" else s!"@{r.index}#{r.generation.toNat}"

end ObjRef

/-- What a cell holds: the fields of an instance, or elements of one kind. -/
inductive ObjectKind where
  | ofClass (className : String)
  | array (k : ElemKind)
deriving DecidableEq

namespace ObjectKind

def text : ObjectKind → String
  | .ofClass className => className
  | .array k => k.name ++ "[]"

end ObjectKind

end AccelHost
