import Roster.Binary64.Basic
import Roster.Binary64.Shortest
import Roster.Decimal.Basic
import Roster.Decimal.Binary
import Roster.Decimal.Parser
import Roster.Digest
import Roster.ErrorResponse
import Roster.Explain
import Roster.Expression.Basic
import Roster.Expression.Error
import Roster.Expression.Parser
import Roster.Filter.Basic
import Roster.Filter.Parser
import Roster.Filter.Printer
import Roster.Http.Message
import Roster.Http.Parameters
import Roster.Http.Route
import Roster.Http.Server
import Roster.Instant.Basic
import Roster.Instant.Loose
import Roster.Instant.Parser
import Roster.Json.Basic
import Roster.Json.Number
import Roster.Json.Parser
import Roster.Json.Printer
import Roster.Json.Record
import Roster.ListRequest
import Roster.Main
import Roster.Malformed
import Roster.Members
import Roster.Meta
import Roster.Patch.Apply
import Roster.Patch.Check
import Roster.Patch.Edit
import Roster.Patch.Error
import Roster.Patch.Operation
import Roster.Patch.Target
import Roster.Projection
import Roster.Proofs.Decimal
import Roster.Proofs.Expression.Accepted
import Roster.Proofs.Expression.Balanced
import Roster.Proofs.Expression.Brackets
import Roster.Proofs.Expression.Comparison
import Roster.Proofs.Expression.Components
import Roster.Proofs.Expression.Consumed
import Roster.Proofs.Expression.Dotted
import Roster.Proofs.Expression.Enclosed
import Roster.Proofs.Expression.Named
import Roster.Proofs.Expression.Narrowed
import Roster.Proofs.Expression.Normalized
import Roster.Proofs.Expression.Paths
import Roster.Proofs.Expression.Reading
import Roster.Proofs.Expression.Respelled
import Roster.Proofs.Expression.Scans
import Roster.Proofs.Expression.Shape
import Roster.Proofs.Expression.Slices
import Roster.Proofs.Expression.Spelling
import Roster.Proofs.Expression.Split
import Roster.Proofs.Expression.Whole
import Roster.Proofs.Filter.Carrying
import Roster.Proofs.Filter.Comparison
import Roster.Proofs.Filter.Detached
import Roster.Proofs.Filter.Enclosed
import Roster.Proofs.Filter.Exact
import Roster.Proofs.Filter.Extent
import Roster.Proofs.Filter.Front
import Roster.Proofs.Filter.Layout
import Roster.Proofs.Filter.Leading
import Roster.Proofs.Filter.Narrowed
import Roster.Proofs.Filter.Reading
import Roster.Proofs.Filter.Relaid
import Roster.Proofs.Filter.Respelled
import Roster.Proofs.Filter.Shape
import Roster.Proofs.Filter.Tokens
import Roster.Proofs.Http.Discreet
import Roster.Proofs.Http.Refusal
import Roster.Proofs.Instant
import Roster.Proofs.Json
import Roster.Proofs.Members
import Roster.Proofs.Members.Kept
import Roster.Proofs.Members.Order
import Roster.Proofs.Members.Others
import Roster.Proofs.Patch.Addition
import Roster.Proofs.Patch.Addressing
import Roster.Proofs.Patch.Again
import Roster.Proofs.Patch.Aims
import Roster.Proofs.Patch.Appended
import Roster.Proofs.Patch.Canonical
import Roster.Proofs.Patch.Checked
import Roster.Proofs.Patch.Conformance
import Roster.Proofs.Patch.Course
import Roster.Proofs.Patch.Declared
import Roster.Proofs.Patch.Done
import Roster.Proofs.Patch.Edits
import Roster.Proofs.Patch.Extensions
import Roster.Proofs.Patch.Immutable
import Roster.Proofs.Patch.Keeping
import Roster.Proofs.Patch.Marks
import Roster.Proofs.Patch.Names
import Roster.Proofs.Patch.Objects
import Roster.Proofs.Patch.Outcome
import Roster.Proofs.Patch.Primary
import Roster.Proofs.Patch.Reassign
import Roster.Proofs.Patch.Replay
import Roster.Proofs.Patch.Respelled
import Roster.Proofs.Patch.Rules
import Roster.Proofs.Patch.SeedNames
import Roster.Proofs.Patch.Seeded
import Roster.Proofs.Patch.Selected
import Roster.Proofs.Patch.Slots
import Roster.Proofs.Patch.Spelling
import Roster.Proofs.Patch.Steps
import Roster.Proofs.Patch.Untouched
import Roster.Proofs.Projection.Always
import Roster.Proofs.Projection.Versions
import Roster.Proofs.Projection.Withheld
import Roster.Proofs.Query.Bracketed
import Roster.Proofs.Query.Compile
import Roster.Proofs.Query.Complement
import Roster.Proofs.Query.Conjunction
import Roster.Proofs.Query.Discreet
import Roster.Proofs.Query.Enclosed
import Roster.Proofs.Query.Narrowed
import Roster.Proofs.Query.Preorder
import Roster.Proofs.Query.Presence
import Roster.Proofs.Query.Ranked
import Roster.Proofs.Query.Recased
import Roster.Proofs.Query.Relaxed
import Roster.Proofs.Query.Selection
import Roster.Proofs.Query.Typed
import Roster.Proofs.Service.Action
import Roster.Proofs.Service.Build
import Roster.Proofs.Service.Change
import Roster.Proofs.Service.Concurrency
import Roster.Proofs.Service.Departure
import Roster.Proofs.Service.Discreet
import Roster.Proofs.Service.Groups
import Roster.Proofs.Service.Lookup
import Roster.Proofs.Service.Membership
import Roster.Proofs.Service.Order
import Roster.Proofs.Service.Page
import Roster.Proofs.Service.PutAgain
import Roster.Proofs.Service.PutBack
import Roster.Proofs.Service.Records
import Roster.Proofs.Service.Resolution
import Roster.Proofs.Service.Settled
import Roster.Proofs.Service.Shown
import Roster.Proofs.Service.Task
import Roster.Proofs.Service.Tidy
import Roster.Proofs.Service.UserNames
import Roster.Proofs.Service.Window
import Roster.Proofs.Settings
import Roster.Proofs.Settings.References
import Roster.Proofs.Sorting
import Roster.Proofs.Store
import Roster.Proofs.Store.Account
import Roster.Proofs.Store.Order
import Roster.Proofs.Success
import Roster.Proofs.Text
import Roster.Proofs.Text.Lowercase
import Roster.Proofs.Text.Sigma
import Roster.Proofs.Text.Unquoted
import Roster.Proofs.Wire
import Roster.Proofs.Wire.Restored
import Roster.Query.Compile
import Roster.Query.Condition
import Roster.Query.SortKey
import Roster.Query.Value
import Roster.Schema.Attribute
import Roster.Schema.Core
import Roster.Schema.Document
import Roster.Schema.Lookup
import Roster.Schema.Registry
import Roster.Schema.Urn
import Roster.Service.Basic
import Roster.Service.Build
import Roster.Service.Change
import Roster.Service.Error
import Roster.Service.Query
import Roster.Service.Task
import Roster.Settings.Address
import Roster.Settings.Basic
import Roster.Settings.Document
import Roster.Settings.Environment
import Roster.Settings.Parser
import Roster.Sorting
import Roster.Store.Basic
import Roster.Store.Call
import Roster.Store.Ledger
import Roster.Text.Ascii
import Roster.Text.Blank
import Roster.Text.Cased
import Roster.Text.Lowercase
import Roster.Text.Printable
import Roster.Text.Slice
import Roster.Toml.Basic
import Roster.Toml.Parser
import Roster.Width
import Roster.Wire
