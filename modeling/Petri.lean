import Petri.Folder
import Petri.Main
import Petri.Proofs.Adjacency.Reverse
import Petri.Proofs.Formula.Primitive
import Petri.Proofs.Formula.Readable
import Petri.Proofs.JointSet.Components
import Petri.Proofs.JointSet.Enumeration
import Petri.Proofs.JointSet.Interleaving
import Petri.Proofs.MarkingGraph.Limit
import Petri.Proofs.MarkingGraph.Verdict
import Petri.Proofs.MarkingGraph.Worklist
import Petri.Proofs.Net.Verdict
import Petri.Proofs.Path.Coverage
import Petri.Proofs.Path.Recursion
import Petri.Proofs.Rule.Meaning
import Petri.Proofs.Rule.RoundTrip
import Petri.Proofs.Unfolding.Structure
import Petri.Proofs.Unfolding.Verdicts
