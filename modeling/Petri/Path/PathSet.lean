import Petri.MarkingGraph.Exploration
import Petri.Path.Trail

/-! The paths of an explored net: those of its markings from the initial one, and those of its live nodes. A place is
always live, a transition if it fires somewhere. -/

namespace Petri

structure PathSet where
  net : Net
  markingPaths : List (List Nat)
  nodePaths : List (List String)

namespace PathSet

def liveNodes (N : Net) (fired : List String) : List String :=
  (N.nodes.filter fun
    | .place _ => true
    | .transition t => fired.contains t.id).map Node.id

/-- The paths of a graph. The limit is on each of the two kinds of path, whatever the start. -/
def ofGraph (budget : Budget) (G : MarkingGraph) : Except Error PathSet := do
  let next (v : Nat) : List Nat := Sorted.ofList (G.successors v)
  let markingPaths ← pathsFrom (List.range G.adjacency.size) next budget.paths #[] 0
  let N := G.initial
  let live := liveNodes N G.fired
  let follow (n : String) : List String := (N.successors n).filter live.contains
  let nodePaths ← live.foldlM (pathsFrom live follow budget.paths) #[]
  return ⟨N, markingPaths.toList, nodePaths.toList⟩

def startingAt (P : PathSet) (n : String) : List (List String) :=
  P.nodePaths.filter fun path => path.head? = some n

def successors (P : PathSet) (n : String) : List String :=
  Sorted.ofList ((P.startingAt n).filterMap fun path => path[1]?)

end PathSet

end Petri
