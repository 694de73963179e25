/-!
Managed methods by class, name and descriptor.
-/
namespace AccelHost

structure Method where
  className : String
  name : String
  descriptor : String
deriving DecidableEq

namespace Method

def text (m : Method) : String := m.className ++ "::" ++ m.name ++ m.descriptor

/-- Methods stand in order of class, name, descriptor. -/
def le (a b : Method) : Bool :=
  if a.className ≠ b.className then a.className < b.className
  else if a.name ≠ b.name then a.name < b.name
  else a.descriptor ≤ b.descriptor

def sorted (ms : List Method) : List Method := ms.eraseDups.mergeSort le

end Method

end AccelHost
