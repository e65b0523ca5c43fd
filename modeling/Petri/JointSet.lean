import Petri.MarkingGraph.Basic

/-! Sets of transitions that fire together. Enabled transitions that compete for input places form a conflict group, and
choices of different groups are combined freely. -/

namespace Petri

structure Demand where
  transition : Transition
  needs : Weights

def Net.demands (N : Net) : List Demand :=
  N.enabled.filterMap fun t => (N.consumption t.id).toOption.map (Demand.mk t)

structure ConflictGroup where
  demands : List Demand
  places : List String

namespace ConflictGroup

def single (d : Demand) : ConflictGroup :=
  ⟨[d], d.needs.map Prod.fst⟩

def meets (g h : ConflictGroup) : Bool :=
  g.places.any h.places.contains

def merge (g h : ConflictGroup) : ConflictGroup :=
  ⟨g.demands ++ h.demands, g.places ++ h.places⟩

def lastFirst {α : Type} (l : List α) : List α :=
  match l.getLast? with
  | none => []
  | some a => a :: l.dropLast

theorem length_lastFirst {α : Type} (l : List α) : (lastFirst l).length = l.length := by
  unfold lastFirst
  cases l with
  | nil => rfl
  | cons a l => simp [List.getLast?_cons]

/-- Adds the group `g`, which takes up the groups of `rest` that it meets; the last group moves to the place of one
that is taken up. The groups of `passed` have been looked at. -/
def absorb (g : ConflictGroup) (passed rest : List ConflictGroup) : List ConflictGroup :=
  match rest with
  | [] => passed ++ [g]
  | h :: rest =>
    if h.meets g then absorb (g.merge h) passed (lastFirst rest)
    else absorb g (passed ++ [h]) rest
termination_by rest.length
decreasing_by
  · simp [length_lastFirst]
  · simp

def ofNet (N : Net) : List ConflictGroup :=
  N.demands.foldl (fun groups d => absorb (single d) [] groups) []

/-- The ways to fire some of the demands on `m` such that neither one of them nor one of `skipped` could still
fire. Not to fire a demand is tried first. -/
def choices (m : Marking) (skipped : List Demand) : List Demand → List (List Transition)
  | [] => if skipped.any fun d => m.covers d.needs then [] else [[]]
  | d :: demands =>
    let without := choices m (d :: skipped) demands
    if m.covers d.needs then
      without ++ (choices (m.remove d.needs) skipped demands).map (d.transition :: ·)
    else without

end ConflictGroup

abbrev JointSet := List Transition

namespace JointSet

def combine : List (List JointSet) → List JointSet
  | [] => [[]]
  | choices :: groups => choices.flatMap fun choice => (combine groups).map (choice ++ ·)

def ofNet (N : Net) : List JointSet :=
  let groups := ConflictGroup.ofNet N
  (combine (groups.map fun g => ConflictGroup.choices N.marking [] g.demands)).filter fun s => !s.isEmpty

def ids (s : JointSet) : List String :=
  s.map Transition.id

def distinct (seen : List (List String)) : List JointSet → List JointSet
  | [] => []
  | s :: sets =>
    let key := Sorted.ofList s.ids
    if seen.contains key then distinct seen sets else s :: distinct (key :: seen) sets

def ofGraph (G : MarkingGraph) : List JointSet :=
  distinct [] (G.vertices.toList.flatMap ofNet)

def has (s : JointSet) (id : String) : Bool :=
  s.any fun t => t.id = id

def matching (s : JointSet) (condition : Context → Bool) : Nat :=
  (Sorted.ofList (ids (s.filter fun t => t.satisfies condition))).length

def anyMatching (sets : List JointSet) (condition : Context → Bool) (n : Nat) : Bool :=
  sets.any fun s => n ≤ s.matching condition

end JointSet

end Petri
