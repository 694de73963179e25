import AccelHost.Main
import AccelHost.Script
import AccelHost.Proofs.Pinning
import AccelHost.Proofs.FinalizeOnce
import AccelHost.Proofs.Modes
import AccelHost.Proofs.Marshalling
import AccelHost.Proofs.StoreRefinement
import AccelHost.Proofs.StaleReferences
import AccelHost.Proofs.OptionGrammar
import AccelHost.Proofs.DescriptorBytes
import AccelHost.Proofs.RejectedCalls
import AccelHost.Proofs.ArgumentFaults
import AccelHost.Proofs.Admission
import AccelHost.Proofs.Registrations
import AccelHost.Proofs.StartupChecks
import AccelHost.Proofs.StartupOutcome
import AccelHost.Proofs.Ledger
import AccelHost.Proofs.Publication
import AccelHost.Proofs.Unloading
import AccelHost.Proofs.DeclarationOrder
import AccelHost.Proofs.Course
import AccelHost.Proofs.Isolation
import AccelHost.Proofs.Lending
import AccelHost.Proofs.Relocation
import AccelHost.Proofs.Batches
import AccelHost.Proofs.HookFailures
import AccelHost.Proofs.LateRegistrations
import AccelHost.Proofs.RoundTrip
import AccelHost.Proofs.ReturnedReferences
import AccelHost.Proofs.InPlace
import AccelHost.Proofs.AskedOnce
import AccelHost.Proofs.CompiledCalls
import AccelHost.Proofs.ConventionTags
import AccelHost.Proofs.ExportTables
import AccelHost.Proofs.BoundedText
import AccelHost.Proofs.LifecycleCalls
import AccelHost.Proofs.NativeSignature
import AccelHost.Proofs.OptionParts
import AccelHost.Proofs.OwnOption
import AccelHost.Proofs.ParameterText
import AccelHost.Proofs.UnitNames
import AccelHost.Proofs.Bounds
import AccelHost.Proofs.FailingRequests
import AccelHost.Proofs.ModuleSearch
import AccelHost.Proofs.UnitLists
import AccelHost.Proofs.FlagRuns
import AccelHost.Proofs.SlotTable
import AccelHost.Proofs.WrittenTexts
