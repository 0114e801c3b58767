import Reactors.Assembly.Basic
import Reactors.Assembly.Walk
import Reactors.Binary64
import Reactors.Catalog.Basic
import Reactors.Catalog.Cycle
import Reactors.Catalog.Lineage
import Reactors.Collect
import Reactors.Command.Arguments
import Reactors.Command.Run
import Reactors.Compilation
import Reactors.Decimal.Layout
import Reactors.Decimal.Numeral
import Reactors.Decimal.Shortest
import Reactors.Diagnostic
import Reactors.Disk
import Reactors.Fault
import Reactors.File
import Reactors.Id
import Reactors.Json.Decode
import Reactors.Json.Reader
import Reactors.Json.Reading
import Reactors.Json.Record
import Reactors.Json.Variant
import Reactors.Json.Writer
import Reactors.Listing
import Reactors.Main
import Reactors.Model.Basic
import Reactors.Model.Elaborate
import Reactors.Model.Read
import Reactors.Options
import Reactors.Program
import Reactors.Proofs.Accounting
import Reactors.Proofs.Assembly.Ascent
import Reactors.Proofs.Assembly.Linked
import Reactors.Proofs.Assembly.Ordered
import Reactors.Proofs.Assembly.Outline
import Reactors.Proofs.Assembly.Preorder
import Reactors.Proofs.Assembly.Walk
import Reactors.Proofs.Binary64
import Reactors.Proofs.Catalog.Closed
import Reactors.Proofs.Catalog.Cycle
import Reactors.Proofs.Catalog.Edits
import Reactors.Proofs.Catalog.Lineage
import Reactors.Proofs.Catalog.Order
import Reactors.Proofs.Collect
import Reactors.Proofs.Command
import Reactors.Proofs.Compilation
import Reactors.Proofs.Json.Documents
import Reactors.Proofs.Json.Forms
import Reactors.Proofs.Json.Grammar
import Reactors.Proofs.Json.Members
import Reactors.Proofs.Json.Numerals
import Reactors.Proofs.Json.Records
import Reactors.Proofs.Json.Spellings
import Reactors.Proofs.Json.Tables
import Reactors.Proofs.Listing
import Reactors.Proofs.Lookup
import Reactors.Proofs.Model.Acceptance
import Reactors.Proofs.Model.Accounts
import Reactors.Proofs.Model.Catalogued
import Reactors.Proofs.Model.Circles
import Reactors.Proofs.Model.Documents
import Reactors.Proofs.Model.Faithful
import Reactors.Proofs.Model.Faults
import Reactors.Proofs.Model.History
import Reactors.Proofs.Model.Instances
import Reactors.Proofs.Model.Losses
import Reactors.Proofs.Model.Meaning
import Reactors.Proofs.Model.Parameters
import Reactors.Proofs.Model.Places
import Reactors.Proofs.Model.Reactors
import Reactors.Proofs.Model.Terms
import Reactors.Proofs.Model.WellFormed
import Reactors.Proofs.Program.Anchored
import Reactors.Proofs.Program.Arena
import Reactors.Proofs.Program.Built
import Reactors.Proofs.Program.Closed
import Reactors.Proofs.Program.Inheritance
import Reactors.Proofs.Program.Ledger
import Reactors.Proofs.Quiet
import Reactors.Proofs.Renaming.Basic
import Reactors.Proofs.Renaming.Matching
import Reactors.Proofs.Renaming.Order
import Reactors.Proofs.Renaming.Script
import Reactors.Proofs.Renaming.Validation
import Reactors.Proofs.Script.Accessors
import Reactors.Proofs.Script.Composition
import Reactors.Proofs.Script.Coverage
import Reactors.Proofs.Script.Derived
import Reactors.Proofs.Script.Duplicates
import Reactors.Proofs.Script.Emission
import Reactors.Proofs.Script.Entries
import Reactors.Proofs.Script.Execution
import Reactors.Proofs.Script.Fields
import Reactors.Proofs.Script.Filler
import Reactors.Proofs.Script.Frame
import Reactors.Proofs.Script.Indentation
import Reactors.Proofs.Script.Literals
import Reactors.Proofs.Script.Merging
import Reactors.Proofs.Script.Parts
import Reactors.Proofs.Script.Pointwise
import Reactors.Proofs.Script.Precedence
import Reactors.Proofs.Script.Resolving
import Reactors.Proofs.Script.Scopes
import Reactors.Proofs.Script.Skeleton
import Reactors.Proofs.Script.Styles
import Reactors.Proofs.Script.Tables
import Reactors.Proofs.Script.Timeliness
import Reactors.Proofs.Script.Values
import Reactors.Proofs.Script.Variables
import Reactors.Proofs.Subsumption
import Reactors.Proofs.Text.Lines
import Reactors.Proofs.Valid
import Reactors.Proofs.Validation
import Reactors.Provenance
import Reactors.Script.ClassBlock
import Reactors.Script.Construction
import Reactors.Script.Expr
import Reactors.Script.Literal
import Reactors.Script.Module
import Reactors.Script.Overrides
import Reactors.Script.Resolution
import Reactors.Sha256
import Reactors.Span
import Reactors.Text.Blank
import Reactors.Text.Quoted
import Reactors.Text.Unseen
import Reactors.Time
import Reactors.Validation
import Reactors.Value
