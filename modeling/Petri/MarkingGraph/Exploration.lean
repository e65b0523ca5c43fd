import Petri.MarkingGraph.Basic

/-! The graph of all markings that a net can reach. They are numbered as they are found, so to visit them by ascending
number is to visit them breadth first. -/

namespace Petri

structure Budget where
  markings : Option Nat := none
  paths : Option Nat := none
deriving DecidableEq

namespace MarkingGraph

def expand (limit : Option Nat) (v : Nat) (N : Net) (G : MarkingGraph) (t : Transition) :
    Except Error MarkingGraph := do
  let M ← N.fire t.id
  let (w, isNew, G) := G.insert M
  if isNew then Resource.markings.within limit G.vertices.size
  return G.link v w t.id

/-- Expands the vertices from number `v` on, as long as there are any and at most `visits` of them. -/
def visit (limit : Option Nat) (visits v : Nat) (G : MarkingGraph) : Except Error MarkingGraph :=
  match visits with
  | 0 => .ok G
  | visits + 1 =>
    match G.vertices[v]? with
    | none => .ok G
    | some N => do
      let G ← N.enabled.foldlM (expand limit v N) G
      visit limit visits (v + 1) G

/-- The markings that `N` can reach. No more vertices can be found than there are markings. -/
def explore (budget : Budget) (N : Net) : Except Error MarkingGraph :=
  visit budget.markings N.marking.alternatives 0 (ofNet N)

end MarkingGraph

end Petri
