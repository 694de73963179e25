import AccelHost.Method
import AccelHost.Signature.Convention
import AccelHost.UnitOption

/-!
Failures of startup. Each is told with the unit, option or entry at fault.
-/
namespace AccelHost

inductive EntryPoint where
  | init | postInit | finalize | exports
deriving DecidableEq

def EntryPoint.symbol : EntryPoint → String
  | init => "naccel_init"
  | postInit => "naccel_post_init"
  | finalize => "naccel_finalize"
  | exports => "naccel_exports"

/-- Why no module was found for an option. -/
inductive LookupFault where
  | notBuiltIn
  | searched (files : List String)
  | unreadable (file reason : String)
deriving DecidableEq

def LookupFault.message : LookupFault → String
  | notBuiltIn => "no built-in unit with this name"
  | searched [] => "search path is empty"
  | searched files => "searched " ++ ", ".intercalate files
  | unreadable file reason => s!"{file}: {reason}"

inductive EntryField where
  | className | methodName | descriptor | nativeName
deriving DecidableEq

def EntryField.text : EntryField → String
  | className => "class name"
  | methodName => "method name"
  | descriptor => "descriptor"
  | nativeName => "native name"

/-- What is wrong with a text of an export entry. -/
inductive TextFault where
  | null | notUtf8 | empty
deriving DecidableEq

def TextFault.text : TextFault → String
  | null => "is null"
  | notUtf8 => "is not UTF-8"
  | empty => "is empty"

inductive EntryFault where
  | field (f : EntryField) (fault : TextFault)
  | nullFunction (m : Method)
  | nullConvention (m : Method) (length : Nat)
  | convention (m : Method) (fault : ConventionFault)
  | descriptor (m : Method) (fault : DescriptorFault)
  | mismatch (m : Method) (fault : Mismatch)
deriving DecidableEq

/-- What is wrong with an export table, or with entries registered outside one. -/
inductive TableFault where
  | nullTable
  | version (found : Nat)
  | tooMany (count : Nat)
  | nullEntries (count : Nat)
  | entry (index : Nat) (fault : EntryFault)
  | nullRegistration
  | unknownUnit
deriving DecidableEq

/-- Version of the binary interface between host and units. -/
def abiVersion : Nat := 1

def maxExportEntries : Nat := 65536

def EntryFault.message (index : Nat) : EntryFault → String
  | field f fault => s!"entry {index}: {f.text} {fault.text}"
  | nullFunction m => s!"entry {index} ({m.text}): null function"
  | nullConvention m n => s!"entry {index} ({m.text}): null convention with length {n}"
  | convention m fault => s!"entry {index} ({m.text}): {fault.message}"
  | descriptor m fault => s!"entry {index}: {fault.message m.descriptor}"
  | mismatch _ fault => fault.message

def TableFault.message : TableFault → String
  | nullTable => "null export table"
  | version found => s!"ABI version mismatch: expected {abiVersion}, found {found}"
  | tooMany count => s!"{count} entries exceeds the limit of {maxExportEntries}"
  | nullEntries count => s!"{count} entries at a null address"
  | entry index fault => fault.message index
  | nullRegistration => "register_native called with a null entry"
  | unknownUnit => "entries registered for an unknown unit"

/-- What a unit told about its failing hook: its reports, or nothing but a status. -/
inductive HookFault where
  | reported (first : String) (others : List String)
  | status (hook : EntryPoint) (status : Int32)
deriving DecidableEq

def HookFault.message : HookFault → String
  | reported first others => "; ".intercalate (first :: others)
  | status hook s => s!"{hook.symbol} returned status {s.toInt}"

inductive StartupError where
  | invalidUnitOption (option : String) (fault : OptionFault)
  | duplicateUnit (feature existing duplicate : String)
  | duplicateEntry (m : Method) (unit owner : String)
  | moduleNotFound (option : String) (fault : LookupFault)
  | missingEntryPoint (unit : String) (point : EntryPoint)
  | invalidExportTable (unit : String) (fault : TableFault)
  | conventionMismatch (unit : String) (m : Method) (fault : Mismatch)
  | initFailed (unit : String) (fault : HookFault)
  | postInitFailed (unit : String) (fault : HookFault)
deriving DecidableEq

namespace StartupError

def message : StartupError → String
  | invalidUnitOption option fault => s!"invalid accel unit option `{option}`: {fault.message}"
  | duplicateUnit feature existing duplicate =>
    s!"duplicate accel unit `{feature}`: `{duplicate}` conflicts with `{existing}`"
  | duplicateEntry m unit owner =>
    s!"duplicate native acceleration entry found for {m.text} in unit `{unit}` " ++
      s!"(already registered by unit `{owner}`)"
  | moduleNotFound option fault => s!"could not find accel unit `{option}`: {fault.message}"
  | missingEntryPoint unit point => s!"accel unit `{unit}` does not export `{point.symbol}`"
  | invalidExportTable unit fault =>
    s!"invalid export table in accel unit `{unit}`: {fault.message}"
  | conventionMismatch unit m fault =>
    s!"calling convention of {m.text} in accel unit `{unit}` does not match its descriptor: " ++
      fault.message
  | initFailed unit fault => s!"failed to initialize accel unit `{unit}`: {fault.message}"
  | postInitFailed unit fault =>
    s!"failed to post-initialize accel unit `{unit}`: {fault.message}"

/-- An entry that does not fit its method is told as such, every other fault as one of the table. -/
def ofEntryFault (unit : String) (index : Nat) : EntryFault → StartupError
  | .mismatch m fault => .conventionMismatch unit m fault
  | fault => .invalidExportTable unit (.entry index fault)

end StartupError

end AccelHost
