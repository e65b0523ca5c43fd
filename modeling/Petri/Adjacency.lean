import Petri.Error

/-! Directed graphs on the vertices `0, 1, ...`, with the labelled edges of each source in a list. `tryDiscrete` and
`tryAdd` refuse numbers that a machine has no room for. -/

namespace Petri

structure Adjacency (α : Type) where
  rows : Array (List (Nat × α)) := #[]
deriving DecidableEq

namespace Adjacency

variable {α : Type}

def discrete (n : Nat) : Adjacency α :=
  ⟨Array.replicate n []⟩

def size (A : Adjacency α) : Nat :=
  A.rows.size

def grow (A : Adjacency α) : Adjacency α :=
  ⟨A.rows.push []⟩

def reserve (A : Adjacency α) (n : Nat) : Adjacency α :=
  ⟨A.rows ++ Array.replicate (n - A.size) []⟩

/-- An edge after those that leave `source` already; vertices up to both ends are added where missing. -/
def add (A : Adjacency α) (source target : Nat) (label : α) : Adjacency α :=
  ⟨(A.reserve (max source target + 1)).rows.modify source (· ++ [(target, label)])⟩

def wordSize : Nat :=
  0x10000000000000000

/-- A row takes 24 bytes, and a table at most half of the addresses. -/
def mostRows : Nat :=
  (wordSize / 2 - 1) / 24

def room (n : Nat) : Except Error Unit :=
  if wordSize ≤ n then .error .vertexOverflow
  else if mostRows < n then .error .noRoom
  else .ok ()

def tryDiscrete (n : Nat) : Except Error (Adjacency α) := do
  room n
  return discrete n

def tryAdd (A : Adjacency α) (source target : Nat) (label : α) : Except Error (Adjacency α) := do
  room (max source target + 1)
  return A.add source target label

def edges (A : Adjacency α) (v : Nat) : List (Nat × α) :=
  A.rows[v]?.getD []

def targets (A : Adjacency α) (v : Nat) : List Nat :=
  (A.edges v).map Prod.fst

def hasEdge (A : Adjacency α) (source target : Nat) : Bool :=
  (A.targets source).contains target

def outDegree (A : Adjacency α) (v : Nat) : Nat :=
  (A.edges v).length

def reverse (A : Adjacency α) : Adjacency α :=
  (List.range A.size).foldl
    (fun R v => (A.edges v).foldl (fun R e => R.add e.1 v e.2) R)
    (discrete A.size)

def within (vertices l : List Nat) : List Nat :=
  l.filter vertices.contains

def without (vertices l : List Nat) : List Nat :=
  l.filter fun v => !vertices.contains v

theorem length_within_add_without (vertices l : List Nat) :
    (within vertices l).length + (without vertices l).length = l.length := by
  induction l with
  | nil => rfl
  | cons v l ih => grind [within, without]

/-- What is left of `unseen` when everything that edges from `stack` lead to, directly or through vertices of
`unseen`, is removed. -/
def unreached (A : Adjacency α) (unseen stack : List Nat) : List Nat :=
  match stack with
  | [] => unseen
  | v :: stack =>
    A.unreached (without (A.targets v) unseen) (within (A.targets v) unseen ++ stack)
termination_by 2 * unseen.length + stack.length
decreasing_by
  have h := length_within_add_without (A.targets v) unseen
  simp only [List.length_append, List.length_cons]
  omega

end Adjacency

end Petri
