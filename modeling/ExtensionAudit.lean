import ExtensionAudit.Cancellation
import ExtensionAudit.Changelog
import ExtensionAudit.Cli.Arguments
import ExtensionAudit.Cli.Output
import ExtensionAudit.Cli.Session
import ExtensionAudit.Cli.Table
import ExtensionAudit.Config.Basic
import ExtensionAudit.Config.Load
import ExtensionAudit.Engine.Basic
import ExtensionAudit.Engine.Scope
import ExtensionAudit.Engine.Templates
import ExtensionAudit.Engine.Validate
import ExtensionAudit.Extension.Basic
import ExtensionAudit.Extension.Project
import ExtensionAudit.Extension.Rules
import ExtensionAudit.Failure
import ExtensionAudit.Files.FileSystem
import ExtensionAudit.Files.Path
import ExtensionAudit.Files.Snapshot
import ExtensionAudit.Files.Walk
import ExtensionAudit.Files.Write
import ExtensionAudit.Json.Decode
import ExtensionAudit.Json.Fault
import ExtensionAudit.Json.Print
import ExtensionAudit.Json.Strict
import ExtensionAudit.Json.Token
import ExtensionAudit.Json.Value
import ExtensionAudit.Main
import ExtensionAudit.Manifest.Basic
import ExtensionAudit.Manifest.Json
import ExtensionAudit.Manifest.Load
import ExtensionAudit.Markup.Document
import ExtensionAudit.Markup.Edit
import ExtensionAudit.Markup.Node
import ExtensionAudit.Markup.StartTag
import ExtensionAudit.Markup.Token
import ExtensionAudit.Markup.Verbatim
import ExtensionAudit.Migration.Basic
import ExtensionAudit.Migration.Registry
import ExtensionAudit.Php.Lint
import ExtensionAudit.Php.Table
import ExtensionAudit.Platform.Kernel
import ExtensionAudit.Platform.Resolution
import ExtensionAudit.Proofs.Changelog.Headings
import ExtensionAudit.Proofs.Changelog.Sections
import ExtensionAudit.Proofs.Engine.Alone
import ExtensionAudit.Proofs.Engine.Candidates
import ExtensionAudit.Proofs.Engine.Fates
import ExtensionAudit.Proofs.Engine.Gating
import ExtensionAudit.Proofs.Engine.Ignores
import ExtensionAudit.Proofs.Engine.Interruption
import ExtensionAudit.Proofs.Engine.Isolation
import ExtensionAudit.Proofs.Engine.Linting
import ExtensionAudit.Proofs.Engine.Members
import ExtensionAudit.Proofs.Engine.Policies
import ExtensionAudit.Proofs.Engine.Reporting
import ExtensionAudit.Proofs.Engine.Runs
import ExtensionAudit.Proofs.Engine.Scopes
import ExtensionAudit.Proofs.Engine.Searching
import ExtensionAudit.Proofs.Engine.Surroundings
import ExtensionAudit.Proofs.Engine.TemplateFiles
import ExtensionAudit.Proofs.Engine.Unaware
import ExtensionAudit.Proofs.Files.AtomicReplacing
import ExtensionAudit.Proofs.Files.Contention
import ExtensionAudit.Proofs.Files.Joining
import ExtensionAudit.Proofs.Files.Keeping
import ExtensionAudit.Proofs.Files.LastNames
import ExtensionAudit.Proofs.Files.Listing
import ExtensionAudit.Proofs.Files.Locations
import ExtensionAudit.Proofs.Files.Outside
import ExtensionAudit.Proofs.Files.Passing
import ExtensionAudit.Proofs.Files.PathOrder
import ExtensionAudit.Proofs.Files.Pruning
import ExtensionAudit.Proofs.Files.Replacing
import ExtensionAudit.Proofs.Files.Resolving
import ExtensionAudit.Proofs.Files.Trees
import ExtensionAudit.Proofs.Markup.AttributeRoom
import ExtensionAudit.Proofs.Markup.Cuts
import ExtensionAudit.Proofs.Markup.ElementEdit
import ExtensionAudit.Proofs.Markup.Front
import ExtensionAudit.Proofs.Markup.Lines
import ExtensionAudit.Proofs.Markup.Neighbours
import ExtensionAudit.Proofs.Markup.Opaque
import ExtensionAudit.Proofs.Markup.Piece
import ExtensionAudit.Proofs.Markup.Positions
import ExtensionAudit.Proofs.Markup.RawText
import ExtensionAudit.Proofs.Markup.Reading
import ExtensionAudit.Proofs.Markup.Rebuilding
import ExtensionAudit.Proofs.Markup.Rereading
import ExtensionAudit.Proofs.Markup.RoundTrip
import ExtensionAudit.Proofs.Markup.Scanning
import ExtensionAudit.Proofs.Markup.SetAttribute
import ExtensionAudit.Proofs.Markup.Shape
import ExtensionAudit.Proofs.Markup.Sweep
import ExtensionAudit.Proofs.Markup.TagEdit
import ExtensionAudit.Proofs.Markup.TagForm
import ExtensionAudit.Proofs.Markup.TagScan
import ExtensionAudit.Proofs.Markup.TokenForm
import ExtensionAudit.Proofs.Markup.TokenScan
import ExtensionAudit.Proofs.Markup.Tree
import ExtensionAudit.Proofs.Markup.WellFormed
import ExtensionAudit.Proofs.Migration.Agreement
import ExtensionAudit.Proofs.Migration.AttributeRenames
import ExtensionAudit.Proofs.Migration.Edits
import ExtensionAudit.Proofs.Migration.ElementRenames
import ExtensionAudit.Proofs.Migration.ElementStructure
import ExtensionAudit.Proofs.Migration.FindingLines
import ExtensionAudit.Proofs.Migration.OpaqueText
import ExtensionAudit.Proofs.Php.LowestRelease
import ExtensionAudit.Proofs.Platform.KernelConstant
import ExtensionAudit.Proofs.Platform.Precedence
import ExtensionAudit.Proofs.Platform.Series
import ExtensionAudit.Proofs.Results
import ExtensionAudit.Proofs.Text.Fields
import ExtensionAudit.Proofs.Version.Agreement
import ExtensionAudit.Proofs.Version.Alternatives
import ExtensionAudit.Proofs.Version.AtLeast
import ExtensionAudit.Proofs.Version.Comparisons
import ExtensionAudit.Proofs.Version.Composition
import ExtensionAudit.Proofs.Version.Display
import ExtensionAudit.Proofs.Version.LeastAdmitted
import ExtensionAudit.Proofs.Version.LowerBound
import ExtensionAudit.Proofs.Version.OperandText
import ExtensionAudit.Proofs.Version.RangeText
import ExtensionAudit.Proofs.Version.Ranges
import ExtensionAudit.Proofs.Version.Readings
import ExtensionAudit.Proofs.Version.SingleTerm
import ExtensionAudit.Proofs.Version.Spellings
import ExtensionAudit.Proofs.Version.Terms
import ExtensionAudit.Report
import ExtensionAudit.Text.Blank
import ExtensionAudit.Text.Columns
import ExtensionAudit.Text.Digit
import ExtensionAudit.Text.Lossy
import ExtensionAudit.Text.LowerCase
import ExtensionAudit.Text.Mark
import ExtensionAudit.Text.Pictograph
import ExtensionAudit.Text.Quoted
import ExtensionAudit.Text.Search
import ExtensionAudit.Text.Sequence
import ExtensionAudit.Text.Unassigned
import ExtensionAudit.Text.Wrap
import ExtensionAudit.Version.Basic
import ExtensionAudit.Version.Constraint
import ExtensionAudit.Version.ConstraintSyntax
import ExtensionAudit.Version.Spelling
import ExtensionAudit.Yaml.Cursor
import ExtensionAudit.Yaml.Decode
import ExtensionAudit.Yaml.Document
import ExtensionAudit.Yaml.Scalar
import ExtensionAudit.Yaml.Token
