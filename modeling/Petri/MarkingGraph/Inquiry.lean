import Petri.MarkingGraph.Basic

/-! Which vertices lead to a condition, asked of a graph that is changed in between. The reversed edges are kept until
then. -/

namespace Petri

namespace MarkingGraph

def satisfying (G : MarkingGraph) (condition : Net → Bool) : List Nat :=
  (List.range G.vertices.size).filter fun v => G.vertices[v]?.any condition

/-- The numbers from which edges lead to one of `goals`, ascending; `reversed` has the edges from target to source. -/
def leadingTo (G : MarkingGraph) (reversed : Adjacency Nat) (goals : List Nat) : List Nat :=
  let numbers := List.range G.adjacency.size
  let missed := reversed.unreached (Adjacency.without goals numbers) goals
  Adjacency.without missed numbers

/-- The numbers from which edges lead to a vertex where `condition` holds, ascending. When it holds at every
vertex these are the vertices. -/
def reaches (G : MarkingGraph) (condition : Net → Bool) : List Nat :=
  let goals := G.satisfying condition
  if goals.length = G.vertices.size then goals
  else G.leadingTo G.adjacency.reverse goals

def alwaysReaches (G : MarkingGraph) (condition : Net → Bool) : Bool :=
  (G.reaches condition).length = G.vertices.size

def all (G : MarkingGraph) (condition : Net → Bool) : Bool :=
  G.vertices.all condition

end MarkingGraph

structure Inquiry where
  graph : MarkingGraph
  reversed : Option (Adjacency Nat) := none

namespace Inquiry

def insert (Q : Inquiry) (N : Net) : Nat × Bool × Inquiry :=
  let (number, isNew, G) := Q.graph.insert N
  (number, isNew, ⟨G, if isNew then none else Q.reversed⟩)

def link (Q : Inquiry) (source target : Nat) (fired : String) : Inquiry :=
  ⟨Q.graph.link source target fired, none⟩

/-- An edge that is only noted leaves the adjacency as it was, and so what was kept of it. -/
def tryLink (Q : Inquiry) (source target : Nat) (fired : String) : Option Error × Inquiry :=
  match Q.graph.tryLink source target fired with
  | (none, G) => (none, ⟨G, none⟩)
  | (some fault, G) => (some fault, ⟨G, Q.reversed⟩)

def reaches (Q : Inquiry) (condition : Net → Bool) : List Nat × Inquiry :=
  let goals := Q.graph.satisfying condition
  if goals.length = Q.graph.vertices.size then (goals, Q)
  else
    let reversed := Q.reversed.getD Q.graph.adjacency.reverse
    (Q.graph.leadingTo reversed goals, ⟨Q.graph, some reversed⟩)

def alwaysReaches (Q : Inquiry) (condition : Net → Bool) : Bool × Inquiry :=
  let (numbers, R) := Q.reaches condition
  (numbers.length = Q.graph.vertices.size, R)

end Inquiry

end Petri
