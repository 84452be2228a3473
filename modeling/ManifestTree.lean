import ManifestTree.Association
import ManifestTree.Catalog.Basic
import ManifestTree.Catalog.Decode
import ManifestTree.Catalog.Format
import ManifestTree.Catalog.Toml
import ManifestTree.Catalog.Yaml
import ManifestTree.Command.Arguments
import ManifestTree.Command.Run
import ManifestTree.Compose
import ManifestTree.Decompose
import ManifestTree.Document.Access
import ManifestTree.Document.Overlay
import ManifestTree.Failure
import ManifestTree.FieldPath
import ManifestTree.FieldRules
import ManifestTree.FileAccess
import ManifestTree.FilePath
import ManifestTree.Json.Basic
import ManifestTree.Json.Reader
import ManifestTree.Json.Text
import ManifestTree.Main
import ManifestTree.Node
import ManifestTree.Number.Binary64
import ManifestTree.Number.Decimal
import ManifestTree.Number.Digits
import ManifestTree.Outline
import ManifestTree.Outline.Codec
import ManifestTree.OutputFormat
import ManifestTree.Relations
import ManifestTree.Schema
import ManifestTree.Settings
import ManifestTree.Settings.Environment
import ManifestTree.Settings.Layer
import ManifestTree.Settle
import ManifestTree.Source.Literal
import ManifestTree.Source.Program
import ManifestTree.Source.TypeNames
import ManifestTree.Supply
import ManifestTree.Text.Alphanumeric
import ManifestTree.Text.LetterCase
import ManifestTree.Text.Visible
import ManifestTree.Text.Words
import ManifestTree.Toml.Quoted
import ManifestTree.Toml.Reader
import ManifestTree.Toml.Table
import ManifestTree.Toml.Value
import ManifestTree.Toml.Word
import ManifestTree.TypeIndex
import ManifestTree.TypeName
import ManifestTree.Workspace
import ManifestTree.Yaml.BlockText
import ManifestTree.Yaml.Character
import ManifestTree.Yaml.Cursor
import ManifestTree.Yaml.Document
import ManifestTree.Yaml.Grammar
import ManifestTree.Yaml.Label
import ManifestTree.Yaml.Plain
import ManifestTree.Yaml.Presentation
import ManifestTree.Yaml.Quoted
import ManifestTree.Yaml.References
import ManifestTree.Yaml.Scalar
import ManifestTree.Yaml.Text
import ManifestTree.Yaml.Token
import ManifestTree.Yaml.Token.Lexer
import ManifestTree.Yaml.Tree
import ManifestTree.Proofs.Association
import ManifestTree.Proofs.Depth
import ManifestTree.Proofs.DeclaredRelations
import ManifestTree.Proofs.ArrivalOrder
import ManifestTree.Proofs.Extension
import ManifestTree.Proofs.Placement
import ManifestTree.Proofs.Leaves
import ManifestTree.Proofs.KeyPath
import ManifestTree.Proofs.Properties
import ManifestTree.Proofs.Restoring
import ManifestTree.Proofs.Visits
import ManifestTree.Proofs.RoundTrip
import ManifestTree.Proofs.EarlyPasses
import ManifestTree.Proofs.PassLogs
import ManifestTree.Proofs.Progress
import ManifestTree.Proofs.Judging
import ManifestTree.Proofs.ComposedDocuments
import ManifestTree.Proofs.IndependentDocuments
import ManifestTree.Proofs.Overlaying
import ManifestTree.Proofs.Relocation
import ManifestTree.Proofs.TakingOut
import ManifestTree.Proofs.Scalars
import ManifestTree.Proofs.Origins
import ManifestTree.Proofs.QuotedText
import ManifestTree.Proofs.RoundingIntervals
import ManifestTree.Proofs.ShortestDecimals
import ManifestTree.Proofs.NumberText
import ManifestTree.Proofs.DataLiterals
import ManifestTree.Proofs.TypeConstants
import ManifestTree.Proofs.GeneratedSource
import ManifestTree.Proofs.RunEndings
import ManifestTree.Proofs.MissedReads
import ManifestTree.Proofs.PassFailures
import ManifestTree.Proofs.FailedRuns
import ManifestTree.Proofs.Descents
import ManifestTree.Proofs.LaidValues
import ManifestTree.Proofs.Deposits
import ManifestTree.Proofs.OutermostElements
import ManifestTree.Proofs.FieldTargets
import ManifestTree.Proofs.WriterOutcomes
import ManifestTree.Proofs.NullFields
import ManifestTree.Proofs.FailedWrites
import ManifestTree.Proofs.TakenValues
import ManifestTree.Proofs.LayeredPaths
import ManifestTree.Proofs.ArrayItems
import ManifestTree.Proofs.ArrayOrder
import ManifestTree.Proofs.PlacementChains
import ManifestTree.Proofs.KeyOrder
import ManifestTree.Proofs.MatchingPasses
import ManifestTree.Proofs.ExchangedSiblings
import ManifestTree.Proofs.DocumentOrder
import ManifestTree.Proofs.RetainedValues
import ManifestTree.Proofs.PathGrammar
import ManifestTree.Proofs.PathText
import ManifestTree.Proofs.ReferencedTypes
import ManifestTree.Proofs.ImportedConstants
import ManifestTree.Proofs.NearestNumbers
import ManifestTree.Proofs.SourceReading
import ManifestTree.Proofs.OutlineData
import ManifestTree.Proofs.IdentifiedDocuments
import ManifestTree.Proofs.Identifiers
