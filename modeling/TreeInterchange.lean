import TreeInterchange.Conversion.Basic
import TreeInterchange.Conversion.Nodes
import TreeInterchange.Conversion.Objects
import TreeInterchange.Conversion.Results
import TreeInterchange.Derivation.NodeTypes
import TreeInterchange.Derivation.Package
import TreeInterchange.Forest.Basic
import TreeInterchange.Forest.Comparison
import TreeInterchange.Forest.Editing
import TreeInterchange.Forest.Traversal
import TreeInterchange.Forest.Value
import TreeInterchange.Issue
import TreeInterchange.Issue.Record
import TreeInterchange.Json.Basic
import TreeInterchange.Json.Printing
import TreeInterchange.Json.Reading
import TreeInterchange.Json.Written
import TreeInterchange.LineTable
import TreeInterchange.Locating
import TreeInterchange.Metamodel.Basic
import TreeInterchange.Metamodel.Builtin
import TreeInterchange.Metamodel.Error
import TreeInterchange.Metamodel.Inheritance
import TreeInterchange.Metamodel.Reading
import TreeInterchange.Metamodel.Writing
import TreeInterchange.ModelError
import TreeInterchange.NodeType
import TreeInterchange.Number.Binary64
import TreeInterchange.Number.Reading
import TreeInterchange.Number.Shortest
import TreeInterchange.ObjectStore.Basic
import TreeInterchange.ObjectStore.Fragment
import TreeInterchange.ObjectStore.Reading
import TreeInterchange.ObjectStore.Writing
import TreeInterchange.Position
import TreeInterchange.Proofs.AppendedArenas
import TreeInterchange.Proofs.AppendedConversions
import TreeInterchange.Proofs.ChildReplacements
import TreeInterchange.Proofs.ContainmentNesting
import TreeInterchange.Proofs.ContainmentTrees
import TreeInterchange.Proofs.ContainmentWalks
import TreeInterchange.Proofs.ConversionLogs
import TreeInterchange.Proofs.ConversionRoundTrip
import TreeInterchange.Proofs.ConversionRuns
import TreeInterchange.Proofs.ConversionToNodes
import TreeInterchange.Proofs.ConversionToObjects
import TreeInterchange.Proofs.DanglingReferences
import TreeInterchange.Proofs.DerivationOrder
import TreeInterchange.Proofs.DerivedFeatures
import TreeInterchange.Proofs.DerivedPackages
import TreeInterchange.Proofs.DerivedSubtypes
import TreeInterchange.Proofs.DerivedTypes
import TreeInterchange.Proofs.DocumentConformity
import TreeInterchange.Proofs.DocumentConversion
import TreeInterchange.Proofs.DocumentObjects
import TreeInterchange.Proofs.DocumentRuns
import TreeInterchange.Proofs.EffectivePositions
import TreeInterchange.Proofs.ExportedPackages
import TreeInterchange.Proofs.ExportedTrees
import TreeInterchange.Proofs.ExportedTypes
import TreeInterchange.Proofs.FeatureBounds
import TreeInterchange.Proofs.FeatureInheritance
import TreeInterchange.Proofs.FieldSelections
import TreeInterchange.Proofs.ForestAttachments
import TreeInterchange.Proofs.ForestEdits
import TreeInterchange.Proofs.ForestOrigins
import TreeInterchange.Proofs.ForestRuns
import TreeInterchange.Proofs.ForestStructure
import TreeInterchange.Proofs.ForestTraversals
import TreeInterchange.Proofs.ForestWalks
import TreeInterchange.Proofs.FragmentAddresses
import TreeInterchange.Proofs.FragmentPaths
import TreeInterchange.Proofs.InheritedFeatures
import TreeInterchange.Proofs.IssuePositions
import TreeInterchange.Proofs.KeyOrder
import TreeInterchange.Proofs.LinePoints
import TreeInterchange.Proofs.LinkPrecedence
import TreeInterchange.Proofs.MetamodelDocumentRoundTrip
import TreeInterchange.Proofs.NestedProvenance
import TreeInterchange.Proofs.NodeConversionRuns
import TreeInterchange.Proofs.NodeImages
import TreeInterchange.Proofs.NodeTrees
import TreeInterchange.Proofs.ObjectConformity
import TreeInterchange.Proofs.ObjectDocumentReading
import TreeInterchange.Proofs.ObjectDocumentRoundTrip
import TreeInterchange.Proofs.ObjectImages
import TreeInterchange.Proofs.OrderedTables
import TreeInterchange.Proofs.PackageOrder
import TreeInterchange.Proofs.PackageReading
import TreeInterchange.Proofs.PackageTables
import TreeInterchange.Proofs.PlainValues
import TreeInterchange.Proofs.PositionLookup
import TreeInterchange.Proofs.PositionObjects
import TreeInterchange.Proofs.RefusedEdits
import TreeInterchange.Proofs.RenderedTrees
import TreeInterchange.Proofs.RepeatedContents
import TreeInterchange.Proofs.RepeatedDerivations
import TreeInterchange.Proofs.ResultConformity
import TreeInterchange.Proofs.ResultObjects
import TreeInterchange.Proofs.ResultRoundTrip
import TreeInterchange.Proofs.SearchRounds
import TreeInterchange.Proofs.SourceDescriptions
import TreeInterchange.Proofs.StatefulRuns
import TreeInterchange.Proofs.StoreOwnership
import TreeInterchange.Proofs.StructuralEquality
import TreeInterchange.Proofs.SupertypeOrders
import TreeInterchange.Proofs.SupertypeSearches
import TreeInterchange.Proofs.TextCuts
import TreeInterchange.Proofs.TraceNavigation
import TreeInterchange.Proofs.TracePaths
import TreeInterchange.Proofs.TransformationRuns
import TreeInterchange.Proofs.TransformerRefinement
import TreeInterchange.Proofs.TreeConvertibility
import TreeInterchange.Proofs.TreeListings
import TreeInterchange.Proofs.TreeWalks
import TreeInterchange.Proofs.UnambiguousFeatures
import TreeInterchange.Proofs.WrittenLiterals
import TreeInterchange.Proofs.WrittenNames
import TreeInterchange.Proofs.WrittenReferences
import TreeInterchange.QualifiedName
import TreeInterchange.Reachability
import TreeInterchange.SourceTree.Basic
import TreeInterchange.SourceTree.Concrete
import TreeInterchange.Table
import TreeInterchange.Text.Lowercase
import TreeInterchange.Text.Split
import TreeInterchange.Trace.Basic
import TreeInterchange.Trace.Loading
import TreeInterchange.Trace.View
import TreeInterchange.Transformer
import TreeInterchange.TypeCatalog
