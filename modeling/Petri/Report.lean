import Petri.Dot
import Petri.JointSet
import Petri.Path.PathSet
import Petri.Unfolding

/-! A report on a net: the size of its marking graph, its paths, and the joint sets of its unfolding. -/

namespace Petri

structure Report where
  net : Net
  graph : MarkingGraph
  paths : PathSet
  sets : List JointSet

namespace Report

def ofNet (N : Net) : Except Error Report := do
  let graph ← MarkingGraph.explore {} N
  let paths ← PathSet.ofGraph {} graph
  let unfolded ← N.unfolding {}
  let sets := JointSet.ofGraph (← MarkingGraph.explore {} unfolded)
  return ⟨N, graph, paths, sets⟩

def largest (R : Report) : Nat :=
  R.sets.foldl (fun most s => max most s.length) 0

def render (R : Report) : String :=
  "steps:          " ++ toString R.graph.vertices.size ++ "\n"
    ++ "arcs:           " ++ toString R.graph.edges.size ++ "\n"
    ++ "final steps:    " ++ toString R.graph.finals.length ++ "\n"
    ++ "step paths:     " ++ toString R.paths.markingPaths.length ++ "\n"
    ++ "node paths:     " ++ toString R.paths.nodePaths.length ++ "\n"
    ++ "parallel sets:  " ++ toString R.sets.length ++ " (largest: " ++ toString R.largest ++ ")\n"

def drawings (R : Report) : List (String × String) :=
  [(R.net.id ++ ".dot", Dot.ofNet R.net), (R.net.id ++ "_graph.dot", Dot.ofGraphInColour R.graph)]

end Report

end Petri
