import AccelHost.Entry
import AccelHost.UnitState

/-!
The registry of a startup: declared units and the entries that they register. Once startup is over
it is published as a snapshot, which nothing changes.
-/
namespace AccelHost

structure DeclaredUnit where
  handle : UnitHandle
  option : UnitOption
  state : UnitState := .parsed
  /-- Where its module came from. -/
  location : Option String := none
  /-- The methods it replaces, in the order of their registration. -/
  methods : List Method := []
deriving DecidableEq

namespace DeclaredUnit

def name (u : DeclaredUnit) : String := u.option.displayName

def isActive (u : DeclaredUnit) : Bool := u.state = .active

end DeclaredUnit

/-- What registering an entry comes to: a new one, a repeat that changes nothing, or one for a
method that another entry has. -/
inductive Admission where
  | fresh
  | repeated
  | taken (owner : String)
deriving DecidableEq

/-- Units in the order of their declaration, entries in the order of their registration. -/
structure Registry where
  units : List DeclaredUnit := []
  entries : List Entry := []
deriving DecidableEq

namespace Registry

variable (r : Registry)

def unit? (handle : UnitHandle) : Option DeclaredUnit := r.units.find? fun u => u.handle = handle

def entryOf? (m : Method) (entries : List Entry) : Option Entry :=
  entries.find? fun e => e.method = m

def find? (m : Method) : Option Entry := entryOf? m r.entries

/-- Declares a unit. Two versions of one feature conflict. -/
def register (option : UnitOption) (handle : UnitHandle) : Except StartupError Registry :=
  match r.units.find? fun u => u.option.feature = option.feature with
  | some u => .error (.duplicateUnit option.feature u.option.text option.text)
  | none => .ok { r with units := r.units ++ [{ handle, option }] }

def modifyUnit (handle : UnitHandle) (f : DeclaredUnit → DeclaredUnit) : Registry :=
  { r with units := r.units.map fun u => if u.handle = handle then f u else u }

/-- How an entry of a unit stands to those registered, and to the new ones of its own batch. -/
def admission (unitName : String) (fresh : List Entry) (e : Entry) : Admission :=
  match r.find? e.method with
  | some other =>
    if other.unit = unitName && other.sameTarget e then .repeated else .taken other.unit
  | none =>
    match entryOf? e.method fresh with
    | some other => if other.sameTarget e then .repeated else .taken unitName
    | none => .fresh

/-- The entries of a batch that are new, after those found new before. -/
def freshEntries (unitName : String) (fresh : List Entry) :
    List Entry → Except StartupError (List Entry)
  | [] => .ok fresh
  | e :: es =>
    match r.admission unitName fresh e with
    | .fresh => freshEntries unitName (fresh ++ [e]) es
    | .repeated => freshEntries unitName fresh es
    | .taken owner => .error (.duplicateEntry e.method unitName owner)

/-- Registers a batch of entries for a unit, all of them or none. -/
def registerEntries (handle : UnitHandle) (batch : List Entry) : Except StartupError Registry :=
  match r.unit? handle with
  | none => .error (.invalidExportTable s!"#{handle}" .unknownUnit)
  | some u =>
    match r.freshEntries u.name [] batch with
    | .error e => .error e
    | .ok fresh =>
      let owned := fresh.map fun e => { e with owner := some handle }
      let methods := owned.map (·.method)
      .ok { r.modifyUnit handle fun u => { u with methods := u.methods ++ methods } with
        entries := r.entries ++ owned }

def activeUnits : List DeclaredUnit := r.units.filter (·.isActive)

/-- Whether an entry goes by the name of a native function. -/
def isNativeName (name : String) : Bool := r.entries.any fun e => e.nativeName = name

theorem entryOf?_method {m : Method} {es : List Entry} {e : Entry} (h : entryOf? m es = some e) :
    e.method = m := by
  simpa using List.find?_some h

theorem entryOf?_append {m : Method} {es fs : List Entry} {e : Entry} (h : entryOf? m es = some e) :
    entryOf? m (es ++ fs) = some e := by
  simp only [entryOf?] at h
  simp [entryOf?, List.find?_append, h]

end Registry

end AccelHost
