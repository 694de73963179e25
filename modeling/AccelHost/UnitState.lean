/-!
States of a unit between declaration and shutdown. They only move forward.
-/
namespace AccelHost

inductive UnitState where
  | parsed | loaded | initFailed | activePending | postInitFailed | active | finalized
deriving DecidableEq

namespace UnitState

def all : List UnitState :=
  [parsed, loaded, initFailed, activePending, postInitFailed, active, finalized]

def canAdvanceTo : UnitState → UnitState → Bool
  | parsed, loaded | loaded, initFailed | loaded, activePending
  | activePending, postInitFailed | activePending, active | active, finalized => true
  | _, _ => false

def isTerminal : UnitState → Bool
  | initFailed | postInitFailed | finalized => true
  | _ => false

def text : UnitState → String
  | parsed => "parsed"
  | loaded => "loaded"
  | initFailed => "init-failed"
  | activePending => "active-pending"
  | postInitFailed => "post-init-failed"
  | active => "active"
  | finalized => "finalized"

def ofText? (s : String) : Option UnitState := all.find? fun u => u.text == s

end UnitState

end AccelHost
