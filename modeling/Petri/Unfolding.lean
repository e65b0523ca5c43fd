import Petri.MarkingGraph.Exploration

/-! Unfolding a net: a transition that can fire several times at once becomes as many copies. The first keeps the id,
the others are called `id#2`, `id#3` and so on, leaving out names that are taken. -/

namespace Petri.Unfolding

def copyName (id : String) (number : Nat) : String :=
  id ++ "#" ++ toString number

/-- The least number after `number` that gives a copy of `id` a name that is not taken. -/
def freshNumber (taken : List String) (id : String) (number : Nat) : Nat :=
  if copyName id (number + 1) ∈ taken then
    freshNumber (taken.erase (copyName id (number + 1))) id (number + 1)
  else number + 1
termination_by taken.length
decreasing_by
  next h =>
    rw [List.length_erase_of_mem h]
    exact Nat.sub_one_lt_of_lt (List.length_pos_of_mem h)

def copyNames (id : String) (taken : List String) (number : Nat) : Nat → List String
  | 0 => []
  | count + 1 =>
    let fresh := freshNumber taken id number
    copyName id fresh :: copyNames id (copyName id fresh :: taken) fresh count

def allCopies (count : Transition → Nat) (taken : List String) :
    List Transition → List (Transition × List String)
  | [] => []
  | t :: transitions =>
    let others := copyNames t.id taken 1 (count t - 1)
    (t, t.id :: others) :: allCopies count (others ++ taken) transitions

def copyCount (G : MarkingGraph) (t : Transition) : Nat :=
  G.vertices.foldl (fun most N => max most (N.occurrences t.id)) 1

def copyArcs (N : Net) (id name : String) : List Arc :=
  ((N.incoming id).map fun a => ⟨a.source, name⟩) ++ (N.outgoing id).map fun a => ⟨name, a.target⟩

end Petri.Unfolding

namespace Petri.Net

def unfolding (budget : Budget) (N : Net) : Except Error Net := do
  let G ← MarkingGraph.explore budget N
  let copies := Unfolding.allCopies (Unfolding.copyCount G) (N.nodes.map Node.id) N.transitions
  let nodes := copies.flatMap fun (t, names) => names.map fun name => Node.transition { t with id := name }
  let arcs := copies.flatMap fun (t, names) => names.flatMap (Unfolding.copyArcs N t.id)
  build (N.id ++ "#unfolded") (N.marking.places.map .place ++ nodes) arcs

end Petri.Net
