import DocumentAccess.Guard.Memory
import DocumentAccess.Main
import DocumentAccess.Proofs.Filter.Scripts
import DocumentAccess.Proofs.Guard.Identity
import DocumentAccess.Proofs.Filter.Coverage
import DocumentAccess.Proofs.Update.Coverage
import DocumentAccess.Proofs.Fields
import DocumentAccess.Proofs.Access.Lookup
import DocumentAccess.Proofs.Access.Requirements
import DocumentAccess.Proofs.Access.Walk
import DocumentAccess.Proofs.Access.Places
import DocumentAccess.Proofs.Access.Policy
import DocumentAccess.Proofs.Access.Arrays
import DocumentAccess.Proofs.Guard.Mediation
import DocumentAccess.Proofs.Access.Selectable
import DocumentAccess.Proofs.Plan.Selection
import DocumentAccess.Proofs.Schema.Codec
import DocumentAccess.Proofs.Access.Addressable
import DocumentAccess.Proofs.Access.Cascade
import DocumentAccess.Proofs.Access.Once
import DocumentAccess.Proofs.Plan.Raising
import DocumentAccess.Proofs.Console.Checking
import DocumentAccess.Proofs.Guard.Paging
import DocumentAccess.Proofs.Update.Independence
import DocumentAccess.Proofs.Catalog.History
import DocumentAccess.Proofs.Schema.RoundTrip
import DocumentAccess.Proofs.Update.Stored
import DocumentAccess.Proofs.Update.AddressFree
import DocumentAccess.Proofs.Filter.Conditions
import DocumentAccess.Proofs.Filter.Idempotence
import DocumentAccess.Proofs.Access.Projection
import DocumentAccess.Proofs.Access.Narrowing
import DocumentAccess.Proofs.Update.ArrayVerbs
import DocumentAccess.Proofs.Update.DeepMerge
import DocumentAccess.Proofs.Numbers
import DocumentAccess.Proofs.Update.Increments
import DocumentAccess.Proofs.Update.Additions
import DocumentAccess.Proofs.Calendar.Days
import DocumentAccess.Proofs.Calendar.Texts
import DocumentAccess.Proofs.Calendar.RoundTrip
import DocumentAccess.Proofs.Ascending
import DocumentAccess.Proofs.Filter.Grouping
import DocumentAccess.Proofs.Access.Readable
import DocumentAccess.Proofs.Schema.Definitions
import DocumentAccess.Proofs.Json.Literals
import DocumentAccess.Proofs.Journal.Lines
import DocumentAccess.Proofs.Sanitizing
