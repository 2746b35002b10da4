import RuleTree.Http.Service
import RuleTree.Http.Standard
import RuleTree.Rules.Parsers
import RuleTree.Proofs.Path.Written
import RuleTree.Proofs.Value.Keys
import RuleTree.Proofs.Expr.Scan
import RuleTree.Path.Write
import RuleTree.Proofs.Expr.Noninterference
import RuleTree.Proofs.Graph.EdgeSets
import RuleTree.Proofs.Graph.Exactness
import RuleTree.Proofs.Graph.Readers
import RuleTree.Proofs.Engine.Soundness
import RuleTree.Proofs.Graph.Nodes
import RuleTree.Proofs.Graph.Lookups
import RuleTree.Proofs.Graph.Walks
import RuleTree.Proofs.Graph.Cycles
import RuleTree.Proofs.Engine.Closure
import RuleTree.Proofs.Graph.Origins
import RuleTree.Proofs.Log
import RuleTree.Proofs.Engine.Faults
import RuleTree.Proofs.Expr.Endings
import RuleTree.Proofs.Expr.Depth
import RuleTree.Proofs.Expr.Applied
import RuleTree.Proofs.Graph.Flat
import RuleTree.Proofs.Number.Range
import RuleTree.Proofs.Text.Readable
import RuleTree.Proofs.Value.Size
import RuleTree.Proofs.Expr.Operators
import RuleTree.Proofs.Expr.Totality
import RuleTree.Proofs.Rules.Reordered
import RuleTree.Proofs.Graph.Sites
import RuleTree.Proofs.Graph.Order
import RuleTree.Proofs.Rules.Listing
import RuleTree.Proofs.Engine.Addresses
import RuleTree.Proofs.Graph.Converse
import RuleTree.Proofs.Graph.Mentioned
import RuleTree.Proofs.Graph.Calls
import RuleTree.Proofs.Registry
import RuleTree.Proofs.Graph.Tours
import RuleTree.Proofs.Graph.Prefixes
import RuleTree.Proofs.Graph.Leaves
import RuleTree.Proofs.Path.Lens
import RuleTree.Proofs.Expr.Branches
import RuleTree.Proofs.Expr.Duality
import RuleTree.Proofs.Path.Obstacles
import RuleTree.Proofs.Path.Facts
import RuleTree.Proofs.Rules.Descent
import RuleTree.Proofs.Registry.Loading
import RuleTree.Proofs.Path.Wildcard
import RuleTree.Proofs.Value.Idents
import RuleTree.Proofs.Value.Renamed
import RuleTree.Proofs.Expr.Renamed
import RuleTree.Proofs.Engine.Batches
import RuleTree.Proofs.Text.Conversion
import RuleTree.Proofs.Engine.Root
import RuleTree.Proofs.Expr.Lookups
import RuleTree.Proofs.Value.Equality
import RuleTree.Proofs.Path.Lenient
import RuleTree.Proofs.Graph.Insertion
import RuleTree.Proofs.Graph.Merge
import RuleTree.Proofs.Http.Addressed
