import Mathlib
import Petri.Proofs.JointSet.Maximal

/-! The joint sets of a graph, read as sets of names, do not depend on the order of the vertices or of the names. -/

namespace Petri

def Net.labels (N : Net) : Finset String :=
  (N.transitions.map Transition.id).toFinset

namespace JointSet

variable {N M : Net} {G H : MarkingGraph} {s s' : JointSet} {t p : String} {S T : Finset String} {ρ : String → String}

namespace Renaming

end Renaming

end JointSet

end Petri
