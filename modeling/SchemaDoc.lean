import SchemaDoc.Annotation.Generated
import SchemaDoc.Annotation.Published
import SchemaDoc.Command.Arguments
import SchemaDoc.Command.Expansion
import SchemaDoc.Command.Failure
import SchemaDoc.Command.FileTree
import SchemaDoc.Command.Files
import SchemaDoc.Command.Help
import SchemaDoc.Command.Listing
import SchemaDoc.Command.Path
import SchemaDoc.Command.Pattern
import SchemaDoc.Command.Run
import SchemaDoc.Definition.Basic
import SchemaDoc.Definition.Format
import SchemaDoc.Double.Basic
import SchemaDoc.Double.OfDecimal
import SchemaDoc.Double.Shortest
import SchemaDoc.Issue.Basic
import SchemaDoc.Issue.Format
import SchemaDoc.Json.Basic
import SchemaDoc.Json.Canonical
import SchemaDoc.Json.Printer
import SchemaDoc.Main
import SchemaDoc.OpenApi.Document
import SchemaDoc.OpenApi.ErrorBody
import SchemaDoc.Projection.Alternatives
import SchemaDoc.Projection.Basic
import SchemaDoc.Projection.Hints
import SchemaDoc.Projection.Location
import SchemaDoc.Projection.Sequence
import SchemaDoc.Proofs.Annotation.Forms
import SchemaDoc.Proofs.Command.Delivery
import SchemaDoc.Proofs.Command.Issues
import SchemaDoc.Proofs.Command.Listing
import SchemaDoc.Proofs.Definition.Chain
import SchemaDoc.Proofs.Definition.ChainText
import SchemaDoc.Proofs.Definition.Compiling
import SchemaDoc.Proofs.Definition.DepthBound
import SchemaDoc.Proofs.Definition.GeneratedText
import SchemaDoc.Proofs.Definition.IntegerLiterals
import SchemaDoc.Proofs.Definition.Literals
import SchemaDoc.Proofs.Definition.MemberOrder
import SchemaDoc.Proofs.Definition.Rearranged
import SchemaDoc.Proofs.Definition.References
import SchemaDoc.Proofs.Definition.Renaming
import SchemaDoc.Proofs.Definition.Roles
import SchemaDoc.Proofs.Definition.Unfolding
import SchemaDoc.Proofs.Definition.WellFormed
import SchemaDoc.Proofs.Double.Exact
import SchemaDoc.Proofs.Double.Integers
import SchemaDoc.Proofs.Double.Rounding
import SchemaDoc.Proofs.Double.Text
import SchemaDoc.Proofs.Double.Values
import SchemaDoc.Proofs.InStep
import SchemaDoc.Proofs.Issue.Addresses
import SchemaDoc.Proofs.Issue.Leaves
import SchemaDoc.Proofs.Issue.Reading
import SchemaDoc.Proofs.Issue.RoundTrip
import SchemaDoc.Proofs.Json.Alike
import SchemaDoc.Proofs.Json.Canonical
import SchemaDoc.Proofs.Json.Equality
import SchemaDoc.Proofs.Json.FromText
import SchemaDoc.Proofs.Json.Members
import SchemaDoc.Proofs.Json.Pointer
import SchemaDoc.Proofs.Json.Validity
import SchemaDoc.Proofs.OpenApi.ErrorBodies
import SchemaDoc.Proofs.OpenApi.Merging
import SchemaDoc.Proofs.OpenApi.Parameters
import SchemaDoc.Proofs.OpenApi.References
import SchemaDoc.Proofs.OpenApi.Retention
import SchemaDoc.Proofs.Projection.Absence
import SchemaDoc.Proofs.Projection.Assembly
import SchemaDoc.Proofs.Projection.BareDocuments
import SchemaDoc.Proofs.Projection.Blame
import SchemaDoc.Proofs.Projection.Coherence
import SchemaDoc.Proofs.Projection.CoherentDocuments
import SchemaDoc.Proofs.Projection.Collapse
import SchemaDoc.Proofs.Projection.Composition
import SchemaDoc.Proofs.Projection.Congruence
import SchemaDoc.Proofs.Projection.Depth
import SchemaDoc.Proofs.Projection.Discrimination
import SchemaDoc.Proofs.Projection.Discriminators
import SchemaDoc.Proofs.Projection.Documents
import SchemaDoc.Proofs.Projection.Enumerated
import SchemaDoc.Proofs.Projection.Enumerations
import SchemaDoc.Proofs.Projection.ErrorLocations
import SchemaDoc.Proofs.Projection.FieldPaths
import SchemaDoc.Proofs.Projection.Fusion
import SchemaDoc.Proofs.Projection.HintSurvival
import SchemaDoc.Proofs.Projection.IntegerEnumerations
import SchemaDoc.Proofs.Projection.Interchange
import SchemaDoc.Proofs.Projection.Keys
import SchemaDoc.Proofs.Projection.Lists
import SchemaDoc.Proofs.Projection.Monotone
import SchemaDoc.Proofs.Projection.NamedOnce
import SchemaDoc.Proofs.Projection.Nesting
import SchemaDoc.Proofs.Projection.OneNumber
import SchemaDoc.Proofs.Projection.Plain
import SchemaDoc.Proofs.Projection.Relocation
import SchemaDoc.Proofs.Projection.Sharing
import SchemaDoc.Proofs.Projection.ToldApart
import SchemaDoc.Proofs.Projection.Traversal
import SchemaDoc.Proofs.Projection.UnionOrder
import SchemaDoc.Proofs.Projection.Wrapping
import SchemaDoc.Proofs.Reading.Agreement
import SchemaDoc.Proofs.Reading.Ensures
import SchemaDoc.Proofs.Reading.ErrorPaths
import SchemaDoc.Proofs.Reading.Leads
import SchemaDoc.Proofs.Reading.Records
import SchemaDoc.Proofs.Reading.Transfer
import SchemaDoc.Proofs.Reading.UnknownMembers
import SchemaDoc.Proofs.Reading.Values
import SchemaDoc.Proofs.Results
import SchemaDoc.Proofs.Schema.Numbers
import SchemaDoc.Proofs.Schema.Parts
import SchemaDoc.Proofs.Source.Layout
import SchemaDoc.Proofs.Source.Numbers
import SchemaDoc.Proofs.Source.Places
import SchemaDoc.Proofs.Source.Printed
import SchemaDoc.Proofs.Text.Characters
import SchemaDoc.Reading.Basic
import SchemaDoc.Reading.Decode
import SchemaDoc.Reading.Error
import SchemaDoc.Reading.NumericKey
import SchemaDoc.Reading.Record
import SchemaDoc.Sample.Journal
import SchemaDoc.Sample.Team
import SchemaDoc.Schema.Basic
import SchemaDoc.Schema.Constraint
import SchemaDoc.Source.Basic
import SchemaDoc.Source.Fault
import SchemaDoc.Source.Lexeme
import SchemaDoc.Source.OfText
import SchemaDoc.Text.Blank
import SchemaDoc.Text.Quoted
import SchemaDoc.Text.Ranges
import SchemaDoc.Text.Word
