import SchemaAccess.Text.Blank
import SchemaAccess.Text.Letters
import SchemaAccess.Text.Name
import SchemaAccess.Text.Affix
import SchemaAccess.Table.Basic
import SchemaAccess.Table.Json
import SchemaAccess.TypeRef
import SchemaAccess.TypeText
import SchemaAccess.Json.Basic
import SchemaAccess.Json.Magnitude
import SchemaAccess.Json.Reader
import SchemaAccess.Document.Position
import SchemaAccess.Accessor
import SchemaAccess.Warning
import SchemaAccess.Error
import SchemaAccess.Declaration
import SchemaAccess.Loose.Cleaning
import SchemaAccess.Loose.Pattern
import SchemaAccess.Loose.View
import SchemaAccess.Document.Token
import SchemaAccess.Text.Digits
import SchemaAccess.Document.Definition
import SchemaAccess.Document.Grammar
import SchemaAccess.Document.View
import SchemaAccess.Selection.Basic
import SchemaAccess.Selection.Json
import SchemaAccess.Model.Basic
import SchemaAccess.Model.Graph
import SchemaAccess.Model.Session
import SchemaAccess.Fragment.Outline
import SchemaAccess.Fragment.Rendered
import SchemaAccess.Generation.Basic
import SchemaAccess.Generation.Json
import SchemaAccess.Files.Path
import SchemaAccess.Emission
import SchemaAccess.Files.Store
import SchemaAccess.Files.Tree
import SchemaAccess.Config.Basic
import SchemaAccess.Config.Json
import SchemaAccess.Config.Loading
import SchemaAccess.Command.Arguments
import SchemaAccess.Command.Run
import SchemaAccess.Main
import SchemaAccess.Proofs.Table.Entries
import SchemaAccess.Proofs.Text.Classes
import SchemaAccess.Proofs.Text.Pieces
import SchemaAccess.Proofs.Text.Squeeze
import SchemaAccess.Proofs.Loose.CleaningLaws
import SchemaAccess.Proofs.Loose.Search
import SchemaAccess.Proofs.Loose.Found
import SchemaAccess.Proofs.Loose.Agreement
import SchemaAccess.Proofs.Loose.Squeezing
import SchemaAccess.Proofs.Loose.Places
import SchemaAccess.Proofs.Loose.Probes
import SchemaAccess.Proofs.Loose.Comments
import SchemaAccess.Proofs.Layout.Spacing
import SchemaAccess.Proofs.Layout.Syntax
import SchemaAccess.Proofs.Layout.Cleaning
import SchemaAccess.Proofs.Layout.CleanedText
import SchemaAccess.Proofs.Layout.Recovery
import SchemaAccess.Proofs.Document.Spelling
import SchemaAccess.Proofs.Document.Reading
import SchemaAccess.Proofs.Plain.Syntax
import SchemaAccess.Proofs.Plain.Layout
import SchemaAccess.Proofs.Plain.Agreement
import SchemaAccess.Proofs.Text.Enclosure
import SchemaAccess.Proofs.Types.Targets
import SchemaAccess.Proofs.Types.Pages
import SchemaAccess.Proofs.Graph.KnownFields
import SchemaAccess.Proofs.Graph.Building
import SchemaAccess.Proofs.Graph.Contract
import SchemaAccess.Proofs.Graph.Attachments
import SchemaAccess.Proofs.Graph.Runs
import SchemaAccess.Proofs.Session.Execution
import SchemaAccess.Proofs.Text.Lines
import SchemaAccess.Proofs.Loose.Chunks
import SchemaAccess.Proofs.Graph.Restriction
import SchemaAccess.Proofs.Session.Owners
import SchemaAccess.Proofs.Session.Restriction
import SchemaAccess.Proofs.Session.Classification
import SchemaAccess.Proofs.Session.ReturnTypes
import SchemaAccess.Proofs.Session.Registry
import SchemaAccess.Proofs.Fragment.Composition
import SchemaAccess.Proofs.Fragment.Rendering
import SchemaAccess.Proofs.Fragment.Levels
import SchemaAccess.Proofs.Fragment.Blocks
import SchemaAccess.Proofs.Fragment.EmptyBlocks
import SchemaAccess.Proofs.Fragment.Restriction
import SchemaAccess.Proofs.Generation.Run
import SchemaAccess.Proofs.Generation.Restriction
import SchemaAccess.Proofs.Generation.Identifiers
import SchemaAccess.Proofs.Emission.Modules
import SchemaAccess.Proofs.Generation.Discovery
import SchemaAccess.Proofs.Generation.Reordering
import SchemaAccess.Proofs.Loose.Reordering
import SchemaAccess.Proofs.Text.Replacing
import SchemaAccess.Proofs.Session.FunctionNames
import SchemaAccess.Proofs.Generation.QueryInputs
import SchemaAccess.Proofs.Json.KeyOrder
import SchemaAccess.Proofs.Emission.Order
import SchemaAccess.Proofs.Emission.Calls
import SchemaAccess.Proofs.Fragment.Indentation
import SchemaAccess.Proofs.Fragment.Shape
import SchemaAccess.Proofs.Graph.References
import SchemaAccess.Proofs.Loose.Composition
import SchemaAccess.Proofs.Loose.Bodies
import SchemaAccess.Proofs.Loose.Seams
import SchemaAccess.Proofs.Layout.Constants
import SchemaAccess.Proofs.Loose.DefaultValues
import SchemaAccess.Proofs.Layout.Literals
import SchemaAccess.Proofs.Loose.Descriptions
import SchemaAccess.Proofs.Loose.TypeSpellings
import SchemaAccess.Proofs.Loose.Headers
import SchemaAccess.Proofs.Loose.DirectiveLists
import SchemaAccess.Proofs.Loose.Spellings
import SchemaAccess.Proofs.Session.Overrides
import SchemaAccess.Proofs.Types.Optionality
import SchemaAccess.Proofs.Views.Parts
import SchemaAccess.Proofs.Layout.Extensions
import SchemaAccess.Proofs.Loose.Bodiless
import SchemaAccess.Proofs.Types.Trees
import SchemaAccess.Proofs.Types.Documentation
import SchemaAccess.Proofs.Json.Reading
import SchemaAccess.Proofs.Selection.Documents
import SchemaAccess.Proofs.Loose.Skips
import SchemaAccess.Proofs.Loose.Cuts
