import EntitySchema.Calendar.Date
import EntitySchema.Calendar.Epoch
import EntitySchema.Calendar.IsoReading
import EntitySchema.Calendar.IsoText
import EntitySchema.Calendar.Moment
import EntitySchema.Catalog
import EntitySchema.Checker
import EntitySchema.Construction
import EntitySchema.Encoding
import EntitySchema.Failure
import EntitySchema.Heap
import EntitySchema.Loading
import EntitySchema.Method
import EntitySchema.Number.Binary64
import EntitySchema.Number.Decimal
import EntitySchema.Persistence
import EntitySchema.Proofs.AgreeingActions
import EntitySchema.Proofs.Agreement
import EntitySchema.Proofs.Assigning
import EntitySchema.Proofs.Boundaries
import EntitySchema.Proofs.Boxes
import EntitySchema.Proofs.Building
import EntitySchema.Proofs.BuildingTrees
import EntitySchema.Proofs.CallDepth
import EntitySchema.Proofs.Capabilities
import EntitySchema.Proofs.Circles
import EntitySchema.Proofs.CircularSaves
import EntitySchema.Proofs.Constructed
import EntitySchema.Proofs.ContainerDecoding
import EntitySchema.Proofs.Containment
import EntitySchema.Proofs.Copying
import EntitySchema.Proofs.Custody
import EntitySchema.Proofs.Data
import EntitySchema.Proofs.DayTexts
import EntitySchema.Proofs.DecodedForm
import EntitySchema.Proofs.Embedded
import EntitySchema.Proofs.EpochMillis
import EntitySchema.Proofs.EqualCheckers
import EntitySchema.Proofs.EquivalentCheckers
import EntitySchema.Proofs.FailedPuts
import EntitySchema.Proofs.FailedSaves
import EntitySchema.Proofs.FilledStores
import EntitySchema.Proofs.Finding
import EntitySchema.Proofs.FirmConstruction
import EntitySchema.Proofs.Frames
import EntitySchema.Proofs.Handles
import EntitySchema.Proofs.HeededFlags
import EntitySchema.Proofs.HeldForms
import EntitySchema.Proofs.Inert
import EntitySchema.Proofs.Inspection
import EntitySchema.Proofs.IsoRoundTrip
import EntitySchema.Proofs.Keyed
import EntitySchema.Proofs.Lasting
import EntitySchema.Proofs.LateBinding
import EntitySchema.Proofs.LeafLookups
import EntitySchema.Proofs.LinkedTables
import EntitySchema.Proofs.ListingBounds
import EntitySchema.Proofs.LoadingDepth
import EntitySchema.Proofs.LoadingNormal
import EntitySchema.Proofs.LoadingTrees
import EntitySchema.Proofs.Log
import EntitySchema.Proofs.LookupOrders
import EntitySchema.Proofs.NestedContainers
import EntitySchema.Proofs.NormalForm
import EntitySchema.Proofs.NotedLookups
import EntitySchema.Proofs.OpenedBoxes
import EntitySchema.Proofs.Orderly
import EntitySchema.Proofs.OrderlyLoading
import EntitySchema.Proofs.Ordinals
import EntitySchema.Proofs.PairedActions
import EntitySchema.Proofs.PairedBuilding
import EntitySchema.Proofs.PairedCopying
import EntitySchema.Proofs.PairedDraws
import EntitySchema.Proofs.PairedLoading
import EntitySchema.Proofs.Pairing
import EntitySchema.Proofs.Payloads
import EntitySchema.Proofs.Persisting
import EntitySchema.Proofs.PlainRaw
import EntitySchema.Proofs.RawForm
import EntitySchema.Proofs.RawTree
import EntitySchema.Proofs.ReadBack
import EntitySchema.Proofs.ReadingBytes
import EntitySchema.Proofs.ReadyStore
import EntitySchema.Proofs.Reconstruction
import EntitySchema.Proofs.Reencoding
import EntitySchema.Proofs.ReferenceChains
import EntitySchema.Proofs.Refinement
import EntitySchema.Proofs.Registrations
import EntitySchema.Proofs.Reloading
import EntitySchema.Proofs.RenamedValues
import EntitySchema.Proofs.Renaming
import EntitySchema.Proofs.Reopening
import EntitySchema.Proofs.RephrasedData
import EntitySchema.Proofs.Reporting
import EntitySchema.Proofs.Retained
import EntitySchema.Proofs.RoundTrip
import EntitySchema.Proofs.Rounding
import EntitySchema.Proofs.Running
import EntitySchema.Proofs.SavedRecords
import EntitySchema.Proofs.SavedReferences
import EntitySchema.Proofs.SavedUnloaded
import EntitySchema.Proofs.Saving
import EntitySchema.Proofs.Settled
import EntitySchema.Proofs.SharedStore
import EntitySchema.Proofs.Showing
import EntitySchema.Proofs.Standing
import EntitySchema.Proofs.SteadyLookups
import EntitySchema.Proofs.StoreChanges
import EntitySchema.Proofs.StoreRuns
import EntitySchema.Proofs.StoreSteps
import EntitySchema.Proofs.StoreWork
import EntitySchema.Proofs.StoredForm
import EntitySchema.Proofs.StoredLookups
import EntitySchema.Proofs.Termination
import EntitySchema.Proofs.ToldForms
import EntitySchema.Proofs.Tree
import EntitySchema.Proofs.Validity
import EntitySchema.Proofs.WrittenData
import EntitySchema.Proofs.ZuluTexts
import EntitySchema.Session
import EntitySchema.Session.Attributes
import EntitySchema.Session.Gather
import EntitySchema.Session.Instant
import EntitySchema.Session.Records
import EntitySchema.Session.Shared
import EntitySchema.Settings
import EntitySchema.Store.Database
import EntitySchema.Store.Disk
import EntitySchema.Store.File
import EntitySchema.Store.Memory
import EntitySchema.Store.Query
import EntitySchema.Store.Record
import EntitySchema.Store.Written
import EntitySchema.Table
import EntitySchema.Text.Blank
import EntitySchema.Text.Case
import EntitySchema.Text.Printable
import EntitySchema.Text.Quoted
import EntitySchema.Text.Utf8
import EntitySchema.Validation
import EntitySchema.Value
import EntitySchema.Value.Attribute
import EntitySchema.Value.Conversion
import EntitySchema.Value.Edit
import EntitySchema.Value.Equality
import EntitySchema.Value.Plain
import EntitySchema.Value.Text
