import AccelHost.Keyed

/-!
Host flags. The host defines them; units read them and change their values, and add none.
-/
namespace AccelHost

/-- The flags of a host, in the order of their definition. -/
structure Flags where
  table : Keyed String String := []
deriving DecidableEq

namespace Flags

/-- Defines a flag, or gives a known one another value. -/
def define (f : Flags) (name value : String) : Flags := ⟨f.table.set name value⟩

def get? (f : Flags) (name : String) : Option String := f.table.get? name

def set? (f : Flags) (name value : String) : Option Flags :=
  if (f.get? name).isSome then some (f.define name value) else none

def names (f : Flags) : List String := Keyed.keys f.table

theorem get?_define_self (f : Flags) (n v : String) : (f.define n v).get? n = some v :=
  Keyed.get?_set_self n v f.table

theorem names_define (f : Flags) (n v : String) :
    (f.define n v).names = if n ∈ f.names then f.names else f.names ++ [n] :=
  Keyed.keys_set n v f.table

theorem mem_names_iff {f : Flags} {n : String} : n ∈ f.names ↔ (f.get? n).isSome := by
  rw [Option.isSome_iff_ne_none, get?, Ne, Keyed.get?_eq_none_iff, Decidable.not_not]
  rfl

end Flags

end AccelHost
