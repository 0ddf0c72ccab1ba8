import SignalCatalog.Datatype
import SignalCatalog.Decimal.Binary64
import SignalCatalog.Decimal.Layout
import SignalCatalog.Decimal.Read
import SignalCatalog.Decimal.Shortest
import SignalCatalog.Files
import SignalCatalog.Instance.Level
import SignalCatalog.Instance.Template
import SignalCatalog.Json.Write
import SignalCatalog.Main
import SignalCatalog.MeasureUnit
import SignalCatalog.Payload.Basic
import SignalCatalog.Payload.Read
import SignalCatalog.Payload.Same
import SignalCatalog.Payload.Validate
import SignalCatalog.Payload.Write
import SignalCatalog.Policy
import SignalCatalog.Proofs.Build.Carried
import SignalCatalog.Proofs.Build.Connect
import SignalCatalog.Proofs.Build.Entries
import SignalCatalog.Proofs.Build.Flat
import SignalCatalog.Proofs.Build.Orphans
import SignalCatalog.Proofs.Build.Outcome
import SignalCatalog.Proofs.Build.Overlay
import SignalCatalog.Proofs.Build.Permuted
import SignalCatalog.Proofs.Build.Repeated
import SignalCatalog.Proofs.Build.Sound
import SignalCatalog.Proofs.Build.Strict
import SignalCatalog.Proofs.Datatype
import SignalCatalog.Proofs.Expand.Addressable
import SignalCatalog.Proofs.Expand.Alike
import SignalCatalog.Proofs.Expand.Anchored
import SignalCatalog.Proofs.Expand.Branch
import SignalCatalog.Proofs.Expand.Contents
import SignalCatalog.Proofs.Expand.Endless
import SignalCatalog.Proofs.Expand.Exact
import SignalCatalog.Proofs.Expand.Failed
import SignalCatalog.Proofs.Expand.Instances
import SignalCatalog.Proofs.Expand.Intact
import SignalCatalog.Proofs.Expand.Iterations
import SignalCatalog.Proofs.Expand.Joining
import SignalCatalog.Proofs.Expand.Merging
import SignalCatalog.Proofs.Expand.Nesting
import SignalCatalog.Proofs.Expand.Order
import SignalCatalog.Proofs.Expand.Passes
import SignalCatalog.Proofs.Expand.Paths
import SignalCatalog.Proofs.Expand.Placeholders
import SignalCatalog.Proofs.Expand.Planting
import SignalCatalog.Proofs.Expand.Regular
import SignalCatalog.Proofs.Expand.Rows
import SignalCatalog.Proofs.Expand.Run
import SignalCatalog.Proofs.Expand.Sketched
import SignalCatalog.Proofs.Expand.Splice
import SignalCatalog.Proofs.Expand.Steps
import SignalCatalog.Proofs.Expand.Stopped
import SignalCatalog.Proofs.Expand.Turns
import SignalCatalog.Proofs.Expand.Unhindered
import SignalCatalog.Proofs.Forest.Alike
import SignalCatalog.Proofs.Forest.Carried
import SignalCatalog.Proofs.Forest.Check
import SignalCatalog.Proofs.Forest.Content
import SignalCatalog.Proofs.Forest.Copies
import SignalCatalog.Proofs.Forest.Cut
import SignalCatalog.Proofs.Forest.Edit
import SignalCatalog.Proofs.Forest.Fill
import SignalCatalog.Proofs.Forest.Front
import SignalCatalog.Proofs.Forest.Graft
import SignalCatalog.Proofs.Forest.Growth
import SignalCatalog.Proofs.Forest.Joined
import SignalCatalog.Proofs.Forest.Named
import SignalCatalog.Proofs.Forest.Operations
import SignalCatalog.Proofs.Forest.Pruned
import SignalCatalog.Proofs.Forest.Regrown
import SignalCatalog.Proofs.Forest.Route
import SignalCatalog.Proofs.Forest.Sketch
import SignalCatalog.Proofs.Forest.Subtree
import SignalCatalog.Proofs.Forest.Tally
import SignalCatalog.Proofs.Forest.Walk
import SignalCatalog.Proofs.Instance.Declaration
import SignalCatalog.Proofs.Instance.Expansion
import SignalCatalog.Proofs.Instance.Group
import SignalCatalog.Proofs.MeasureUnit
import SignalCatalog.Proofs.Merge.Again
import SignalCatalog.Proofs.Merge.Commute
import SignalCatalog.Proofs.Merge.Completed
import SignalCatalog.Proofs.Merge.Contents
import SignalCatalog.Proofs.Merge.Ensure
import SignalCatalog.Proofs.Merge.Exact
import SignalCatalog.Proofs.Merge.Graft
import SignalCatalog.Proofs.Merge.Kinds
import SignalCatalog.Proofs.Merge.Paved
import SignalCatalog.Proofs.Merge.Refined
import SignalCatalog.Proofs.Merge.Rooted
import SignalCatalog.Proofs.Merge.Steps
import SignalCatalog.Proofs.Merge.Underway
import SignalCatalog.Proofs.Payload.Again
import SignalCatalog.Proofs.Payload.Attributes
import SignalCatalog.Proofs.Payload.Fields
import SignalCatalog.Proofs.Payload.Kept
import SignalCatalog.Proofs.Payload.Missing
import SignalCatalog.Proofs.Payload.Refine
import SignalCatalog.Proofs.Payload.Reread
import SignalCatalog.Proofs.Payload.Unordered
import SignalCatalog.Proofs.Payload.Valid
import SignalCatalog.Proofs.Payload.Viewed
import SignalCatalog.Proofs.Payload.Written
import SignalCatalog.Proofs.Policy
import SignalCatalog.Proofs.QualifiedName
import SignalCatalog.Proofs.Registry.Known
import SignalCatalog.Proofs.Registry.Lookup
import SignalCatalog.Proofs.Registry.Operations
import SignalCatalog.Proofs.Registry.Reset
import SignalCatalog.Proofs.Registry.Resolved
import SignalCatalog.Proofs.Registry.Subtypes
import SignalCatalog.Proofs.Run.Engine
import SignalCatalog.Proofs.Run.Postcondition
import SignalCatalog.Proofs.Run.Stages
import SignalCatalog.Proofs.Spec.Composition
import SignalCatalog.Proofs.Spec.Ending
import SignalCatalog.Proofs.Spec.Entries
import SignalCatalog.Proofs.Spec.Nesting
import SignalCatalog.Proofs.Spec.Scope
import SignalCatalog.Proofs.Spec.Update
import SignalCatalog.Proofs.Steps
import SignalCatalog.Proofs.Text.Pieces
import SignalCatalog.Proofs.TypeTree.Declared
import SignalCatalog.Proofs.TypeTree.Dynamic
import SignalCatalog.Proofs.TypeTree.Loaded
import SignalCatalog.Proofs.TypeTree.Registered
import SignalCatalog.Proofs.TypeTree.Shown
import SignalCatalog.Proofs.Value.Mapping
import SignalCatalog.Proofs.Value.Order
import SignalCatalog.Proofs.Value.Same
import SignalCatalog.Proofs.Value.Tags
import SignalCatalog.Proofs.Value.Typed
import SignalCatalog.Proofs.Yaml.Keyed
import SignalCatalog.Proofs.Yaml.Sheet
import SignalCatalog.QualifiedName
import SignalCatalog.Registry.Basic
import SignalCatalog.Registry.Load
import SignalCatalog.Run.Catalog
import SignalCatalog.Run.CommandLine
import SignalCatalog.Run.Config
import SignalCatalog.Spec.Include
import SignalCatalog.Spec.Load
import SignalCatalog.Spec.Update
import SignalCatalog.Text.Blank
import SignalCatalog.Text.Hex
import SignalCatalog.Text.Percent
import SignalCatalog.Text.Printable
import SignalCatalog.Text.Quoted
import SignalCatalog.Tree.Basic
import SignalCatalog.Tree.Build
import SignalCatalog.Tree.Expand
import SignalCatalog.Tree.Forest
import SignalCatalog.Tree.Merge
import SignalCatalog.Tree.Walk
import SignalCatalog.TypeTree
import SignalCatalog.Uuid.Named
import SignalCatalog.Uuid.Sha1
import SignalCatalog.Value.Basic
import SignalCatalog.Value.Inspect
import SignalCatalog.Value.Mapping
import SignalCatalog.Value.Tag
import SignalCatalog.Value.Typed
import SignalCatalog.Yaml.Directive
import SignalCatalog.Yaml.Node
import SignalCatalog.Yaml.Read
import SignalCatalog.Yaml.Resolve
import SignalCatalog.Yaml.Scalar
import SignalCatalog.Yaml.Source
import SignalCatalog.Yaml.Tag
import SignalCatalog.Yaml.Token
import SignalCatalog.Yaml.Writable
import SignalCatalog.Yaml.Write
