import Petri.Adjacency
import Petri.Marking.Order
import Petri.Net.Firing

/-! Graphs of markings. A vertex is a marked net and is told from others by its marking alone. -/

namespace Petri

structure Edge where
  source : Nat
  target : Nat
  fired : String
deriving DecidableEq

structure MarkingGraph where
  vertices : Array Net
  edges : Array Edge
  index : Std.TreeMap Marking Nat Marking.cmp
  /-- For each vertex the edges that leave it, by their positions in `edges`. -/
  adjacency : Adjacency Nat
  nonempty : 0 < vertices.size

namespace MarkingGraph

def ofNet (N : Net) : MarkingGraph where
  vertices := #[N]
  edges := #[]
  index := Std.TreeMap.empty.insert N.marking 0
  adjacency := .discrete 1
  nonempty := Nat.one_pos

def initial (G : MarkingGraph) : Net :=
  have := G.nonempty
  G.vertices[0]

def find? (G : MarkingGraph) (m : Marking) : Option Nat :=
  G.index[m]?

/-- Adds a vertex unless there is one with its marking. Gives the number of the vertex and whether it is new. -/
def insert (G : MarkingGraph) (N : Net) : Nat × Bool × MarkingGraph :=
  match G.find? N.marking with
  | some number => (number, false, G)
  | none =>
    let number := G.adjacency.size
    (number, true,
      { G with
        vertices := G.vertices.push N
        index := G.index.insert N.marking number
        adjacency := G.adjacency.grow
        nonempty := by simp })

theorem find?_ofNet (N : Net) (m : Marking) :
    (ofNet N).find? m = if N.marking = m then some 0 else none := by
  simp [find?, ofNet, Std.TreeMap.getElem?_insert, Std.LawfulEqCmp.compare_eq_iff_eq]

theorem find?_insert (G : MarkingGraph) (N : Net) (m : Marking) :
    (G.insert N).2.2.find? m = if N.marking = m then some (G.insert N).1 else G.find? m := by
  unfold insert
  split
  · next h =>
    split
    · next hm => exact hm ▸ h
    · rfl
  · simp [find?, Std.TreeMap.getElem?_insert, Std.LawfulEqCmp.compare_eq_iff_eq]

def link (G : MarkingGraph) (source target : Nat) (fired : String) : MarkingGraph :=
  let position := G.edges.size
  { G with
    edges := G.edges.push ⟨source, target, fired⟩
    adjacency := G.adjacency.add source target position }

def note (G : MarkingGraph) (source target : Nat) (fired : String) : MarkingGraph :=
  { G with edges := G.edges.push ⟨source, target, fired⟩ }

/-- Adds an edge. Where there is no room for vertices with the numbers of its ends, the edge is only noted. -/
def tryLink (G : MarkingGraph) (source target : Nat) (fired : String) : Option Error × MarkingGraph :=
  match Adjacency.room (max source target + 1) with
  | .ok () => (none, G.link source target fired)
  | .error fault => (some fault, G.note source target fired)

def outgoing (G : MarkingGraph) (v : Nat) : List Edge :=
  (G.adjacency.edges v).filterMap fun e => G.edges[e.2]?

def successors (G : MarkingGraph) (v : Nat) : List Nat :=
  G.adjacency.targets v

def fired (G : MarkingGraph) : List String :=
  Sorted.ofList (G.edges.toList.map Edge.fired)

def finals (G : MarkingGraph) : List Nat :=
  (List.range G.vertices.size).filter fun v => G.adjacency.outDegree v = 0

end MarkingGraph

end Petri
