import PropertyBinding.Name
import PropertyBinding.Entries
import PropertyBinding.Text.Split
import PropertyBinding.Text.CharTables
import PropertyBinding.Text.Characters
import PropertyBinding.Numeric.Floating
import PropertyBinding.Numeric.Shortest
import PropertyBinding.Numeric.FloatText
import PropertyBinding.Numeric.Reading
import PropertyBinding.Numeric.ByteCount
import PropertyBinding.Phase
import PropertyBinding.ValueType
import PropertyBinding.Schema
import PropertyBinding.Naming
import PropertyBinding.Value
import PropertyBinding.Convert
import PropertyBinding.Error
import PropertyBinding.Pattern
import PropertyBinding.Definition
import PropertyBinding.Registration
import PropertyBinding.Realized
import PropertyBinding.Fingerprint
import PropertyBinding.Plan
import PropertyBinding.Json
import PropertyBinding.Json.Number
import PropertyBinding.Json.Reader
import PropertyBinding.Plan.Text
import PropertyBinding.Source
import PropertyBinding.Loader
import PropertyBinding.Frozen
import PropertyBinding.Toml.Datetime
import PropertyBinding.Toml
import PropertyBinding.Toml.Datetime.Reader
import PropertyBinding.Toml.OpenTable
import PropertyBinding.Toml.Reader
import PropertyBinding.Source.Document
import PropertyBinding.Source.Environment
import PropertyBinding.Source.Arguments
import PropertyBinding.Metadata
import PropertyBinding.Extraction
import PropertyBinding.Proofs.Index
import PropertyBinding.Proofs.Traversal
import PropertyBinding.Proofs.Declarations
import PropertyBinding.Proofs.Layout
import PropertyBinding.Proofs.Drafting
import PropertyBinding.Proofs.Acceptance
import PropertyBinding.Proofs.Registered
import PropertyBinding.Proofs.Shapes
import PropertyBinding.Proofs.Filling
import PropertyBinding.Proofs.Replaying
import PropertyBinding.Proofs.Realizing
import PropertyBinding.Proofs.StoredPlan
import PropertyBinding.Proofs.ForeignPlan
import PropertyBinding.Proofs.ShortestDigits
import PropertyBinding.Proofs.JsonText
import PropertyBinding.Proofs.ValueText
import PropertyBinding.Proofs.PlanText
import PropertyBinding.Proofs.Loading
import PropertyBinding.Proofs.PlainLoading
import PropertyBinding.Proofs.Templates
import PropertyBinding.Proofs.Agreement
import PropertyBinding.Proofs.Bijection
import PropertyBinding.Proofs.Indices
import PropertyBinding.Proofs.WildcardKeys
import PropertyBinding.Proofs.LoadRuns
import PropertyBinding.Proofs.LoadReports
import PropertyBinding.Proofs.Aborting
import PropertyBinding.Proofs.LoadOrder
import PropertyBinding.Proofs.Unwritten
import PropertyBinding.Proofs.Traces
import PropertyBinding.Proofs.Stages
import PropertyBinding.Proofs.Quoting
import PropertyBinding.Proofs.MapKeys
import PropertyBinding.Proofs.Freezing
import PropertyBinding.Proofs.Resolving
import PropertyBinding.Proofs.TomlTables
import PropertyBinding.Proofs.Flattening
import PropertyBinding.Proofs.Matching
import PropertyBinding.Proofs.Refreshing
import PropertyBinding.Proofs.Writings
import PropertyBinding.Proofs.Reloading
import PropertyBinding.Proofs.ListText
import PropertyBinding.Proofs.NumberText
import PropertyBinding.Proofs.DefaultGraphs
import PropertyBinding.Proofs.DerivedNames
import PropertyBinding.Proofs.DerivedDeclarations
import PropertyBinding.Proofs.DerivedRoots
import PropertyBinding.Proofs.Reaching
import PropertyBinding.Proofs.ArrayProperties
import PropertyBinding.Proofs.StructReading
import PropertyBinding.Proofs.Mirroring
import PropertyBinding.Proofs.MemorySizes
import PropertyBinding.Proofs.Binding
import PropertyBinding.Proofs.Enumeration
import PropertyBinding.Proofs.ByteCounts
import PropertyBinding.Proofs.VariableNames
import PropertyBinding.Proofs.ByteSpans
import PropertyBinding.Proofs.Tiling
import PropertyBinding.Proofs.Hyphenation
import PropertyBinding.Proofs.UntypedIntegers
