import AccelHost.Native
import AccelHost.StartupError
import AccelHost.Text.Terminated

/-!
Entries: managed methods with the native functions that replace them, and the raw form in which
units export them. A raw entry is checked in all its parts before it becomes an entry.
-/
namespace AccelHost

open Text (ForeignText)

/-- A number that tells one unit of a process from all others. -/
abbrev UnitHandle := Nat

/-- Where an entry has its native function from. A provider is asked for it with some data. -/
inductive NativeTarget where
  | direct (code : CodeRef)
  | provided (provider : CodeRef) (data : Option CodeRef)
deriving DecidableEq

structure Entry where
  /-- Name of the unit. -/
  unit : String
  method : Method
  nativeName : String
  target : NativeTarget
  convention : Convention
  /-- The unit whose module must be there for a call; none for an entry that no unit registered. -/
  owner : Option UnitHandle := none
  /-- Tells entries without an owner apart, also equal ones. -/
  serial : Nat := 0
deriving DecidableEq

/-- What makes an entry itself: a unit registers one for a method, others have a number. -/
inductive EntryId where
  | registered (owner : UnitHandle) (method : Method)
  | single (serial : Nat)
deriving DecidableEq

namespace Entry

def id (e : Entry) : EntryId :=
  match e.owner with
  | some handle => .registered handle e.method
  | none => .single e.serial

def isProvided (e : Entry) : Bool :=
  match e.target with
  | .direct _ => false
  | .provided .. => true

/-- Whether two entries of a method call the same code in the same way. -/
def sameTarget (a b : Entry) : Bool := a.target = b.target && a.convention = b.convention

end Entry

/-- An export entry as it lies in a unit's memory. -/
structure RawEntry where
  className : ForeignText
  methodName : ForeignText
  descriptor : ForeignText
  nativeName : ForeignText
  func : Option CodeRef
  /-- The tags from their address on, unless that is null. -/
  tags : Option (List UInt8)
  tagCount : Nat
  provider : Option CodeRef

namespace RawEntry

def text (f : EntryField) : ForeignText → Except EntryFault String
  | .null => .error (.field f .null)
  | .bytes b =>
    match Text.decodeUtf8 (Text.beforeNul b) with
    | none => .error (.field f .notUtf8)
    | some "" => .error (.field f .empty)
    | some s => .ok s

variable (raw : RawEntry)

/-- The method of an entry and the name of its native function. -/
def names : Except EntryFault (Method × String) :=
  match text .className raw.className with
  | .error e => .error e
  | .ok className =>
    match text .methodName raw.methodName with
    | .error e => .error e
    | .ok name =>
      match text .descriptor raw.descriptor with
      | .error e => .error e
      | .ok descriptor =>
        match text .nativeName raw.nativeName with
        | .error e => .error e
        | .ok nativeName => .ok (⟨className, name, descriptor⟩, nativeName)

/-- The target of an entry: its provider, or else its function. -/
def target? : Option NativeTarget :=
  match raw.provider with
  | some p => some (.provided p raw.func)
  | none => raw.func.map .direct

/-- The tags that an entry counts. Without a count no address is needed. -/
def tags? : Option (List UInt8) :=
  if raw.tagCount = 0 then some [] else raw.tags.map (·.take raw.tagCount)

/-- Checks the parts of an entry, first its texts, then its function, its convention, its descriptor
and last whether the two agree. -/
def check (unit : String) : Except EntryFault Entry :=
  match raw.names with
  | .error e => .error e
  | .ok (method, nativeName) =>
    match raw.target? with
    | none => .error (.nullFunction method)
    | some target =>
      match raw.tags? with
      | none => .error (.nullConvention method raw.tagCount)
      | some tags =>
        match Convention.ofTags tags with
        | .error e => .error (.convention method e)
        | .ok convention =>
          match Descriptor.parse method.descriptor with
          | .error e => .error (.descriptor method e)
          | .ok descriptor =>
            match convention.mismatch? descriptor with
            | some m => .error (.mismatch method m)
            | none => .ok { unit, method, nativeName, target, convention }

end RawEntry

/-- The table that a unit exports, as it lies in the unit's memory. -/
structure ExportTable where
  version : Nat
  count : Nat
  /-- The entries from their address on, unless that is null. -/
  entries : Option (List RawEntry)

namespace ExportTable

def checkEntries (unit : String) (index : Nat) : List RawEntry → Except StartupError (List Entry)
  | [] => .ok []
  | raw :: rest =>
    match raw.check unit with
    | .error e => .error (.ofEntryFault unit index e)
    | .ok entry =>
      match checkEntries unit (index + 1) rest with
      | .error e => .error e
      | .ok entries => .ok (entry :: entries)

/-- The entries of a table, all of them or none. A table may itself be null. -/
def read (unit : String) : Option ExportTable → Except StartupError (List Entry)
  | none => .error (.invalidExportTable unit .nullTable)
  | some t =>
    if t.version ≠ abiVersion then .error (.invalidExportTable unit (.version t.version))
    else if maxExportEntries < t.count then .error (.invalidExportTable unit (.tooMany t.count))
    else if t.count = 0 then .ok []
    else
      match t.entries with
      | none => .error (.invalidExportTable unit (.nullEntries t.count))
      | some entries => checkEntries unit 0 (entries.take t.count)

end ExportTable

end AccelHost
