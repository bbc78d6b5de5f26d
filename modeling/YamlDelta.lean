import YamlDelta.Compare.Data
import YamlDelta.Main
import YamlDelta.Proofs.Compare.Pairing
import YamlDelta.Proofs.Compare.Recursion
import YamlDelta.Proofs.Compare.Divergence
import YamlDelta.Proofs.Compare.Equality
import YamlDelta.Proofs.Compare.Conservation
import YamlDelta.Proofs.Compare.Hiding
import YamlDelta.Proofs.Compare.Reordering
import YamlDelta.Proofs.Compare.Balance
import YamlDelta.Proofs.Compare.Mirror
import YamlDelta.Proofs.Markup.Fidelity
import YamlDelta.Proofs.Markup.Aliases
import YamlDelta.Proofs.Node.Paths
import YamlDelta.Proofs.View.Marks
import YamlDelta.Proofs.View.Leaves
import YamlDelta.Proofs.View.Sides
import YamlDelta.Proofs.View.Lookup
import YamlDelta.Proofs.View.Breaks
import YamlDelta.Proofs.View.Readback
import YamlDelta.Proofs.Command.Verdict
import YamlDelta.Proofs.Compare.Matching
import YamlDelta.Proofs.Compare.Occurrences
import YamlDelta.Proofs.View.Colours
import YamlDelta.Proofs.Compare.Termination
import YamlDelta.Proofs.Compare.Presentation
import YamlDelta.Proofs.Decimal.Rounding
import YamlDelta.Proofs.Node.Resolution
import YamlDelta.Proofs.Node.Canonical
import YamlDelta.Proofs.Text.Position
import YamlDelta.Proofs.View.Data
import YamlDelta.Proofs.View.Entries
import YamlDelta.Proofs.View.Keys
import YamlDelta.Proofs.Compare.Order
import YamlDelta.Proofs.View.Displayed
import YamlDelta.Proofs.Markup.Nulls
