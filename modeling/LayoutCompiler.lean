import LayoutCompiler.Main
import LayoutCompiler.Storage.FileTree
import LayoutCompiler.Proofs.Compilation.Insets
import LayoutCompiler.Proofs.Layout.BoxModel
import LayoutCompiler.Proofs.Text.Leads
import LayoutCompiler.Proofs.Resource.Literals
import LayoutCompiler.Proofs.Resource.Denotation
import LayoutCompiler.Proofs.Resource.Keys
import LayoutCompiler.Proofs.Resource.Reading
import LayoutCompiler.Proofs.Rule.Acceptance
import LayoutCompiler.Proofs.Output.Constraints
import LayoutCompiler.Proofs.Compilation.Outlets
import LayoutCompiler.Proofs.Compilation.Variants
import LayoutCompiler.Proofs.Compilation.Statistics
import LayoutCompiler.Proofs.Compilation.UsedResources
import LayoutCompiler.Proofs.Output.Connections
import LayoutCompiler.Proofs.Storage.Journal
import LayoutCompiler.Proofs.Text.Names
import LayoutCompiler.Proofs.Output.Paths
import LayoutCompiler.Proofs.Project.Files
import LayoutCompiler.Proofs.Style.References
import LayoutCompiler.Proofs.Text.Templates
import LayoutCompiler.Proofs.Compilation.OutletNames
import LayoutCompiler.Proofs.Output.Bindings
import LayoutCompiler.Proofs.Layout.Overlays
import LayoutCompiler.Proofs.Rule.Loading
import LayoutCompiler.Proofs.Rule.Relisting
import LayoutCompiler.Proofs.Text.Renderings
import LayoutCompiler.Proofs.Output.Declarations
import LayoutCompiler.Proofs.Output.Fragments
import LayoutCompiler.Proofs.Compilation.Unread
import LayoutCompiler.Proofs.Compilation.Inertness
import LayoutCompiler.Proofs.Layout.Margins
import LayoutCompiler.Proofs.Output.References
import LayoutCompiler.Proofs.Output.Attributes
import LayoutCompiler.Proofs.Output.Queries
import LayoutCompiler.Proofs.Style.Chains
import LayoutCompiler.Proofs.Layout.Gravity
import LayoutCompiler.Proofs.Layout.Weights
import LayoutCompiler.Proofs.Resource.Alarms
import LayoutCompiler.Proofs.Layout.Rows
import LayoutCompiler.Proofs.Compilation.WrapPower
import LayoutCompiler.Proofs.Layout.Stretching
import LayoutCompiler.Proofs.Layout.Consensus
import LayoutCompiler.Proofs.Tree.Meeting
import LayoutCompiler.Proofs.Tree.Tidy
import LayoutCompiler.Proofs.Tree.Changes
import LayoutCompiler.Proofs.Rule.Succession
import LayoutCompiler.Proofs.Rule.Additions
import LayoutCompiler.Proofs.Resource.Selectors
import LayoutCompiler.Proofs.Tree.Paths
import LayoutCompiler.Proofs.Compilation.PathFaults
import LayoutCompiler.Proofs.Tree.Branches
import LayoutCompiler.Proofs.Tree.Footprints
import LayoutCompiler.Proofs.Compilation.States
import LayoutCompiler.Proofs.Markup.Wording
import LayoutCompiler.Proofs.Compilation.Blame
import LayoutCompiler.Proofs.Compilation.Clashes
import LayoutCompiler.Proofs.Tree.Walks
import LayoutCompiler.Proofs.Number.Decimal
import LayoutCompiler.Proofs.Number.Rounding
