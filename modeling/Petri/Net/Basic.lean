import Petri.Context
import Petri.Marking

/-! Marked nets. Arcs that repeat add up to a weight. `Net.build` checks a description and reports its first fault. -/

namespace Petri

structure Transition where
  id : String
  context : Option Context := none
deriving DecidableEq

def Transition.satisfies (t : Transition) (condition : Context → Bool) : Bool :=
  t.context.any condition

inductive Node where
  | place (p : Place)
  | transition (t : Transition)
deriving DecidableEq

namespace Node

def id : Node → String
  | place p => p.id
  | transition t => t.id

def place? : Node → Option Place
  | place p => some p
  | transition _ => none

def transition? : Node → Option Transition
  | place _ => none
  | transition t => some t

def domain : Node → Domain
  | place _ => .state
  | transition _ => .transition

end Node

structure Arc where
  source : String
  target : String
deriving DecidableEq

def Arc.Joins (a : Arc) (places transitions : List String) : Prop :=
  (a.source ∈ places ∧ a.target ∈ transitions) ∨ (a.source ∈ transitions ∧ a.target ∈ places)

def Arc.fault? (a : Arc) (places transitions : List String) : Option Error :=
  if a.source ∉ places ∧ a.source ∉ transitions then some (.unknownNode a.source a.target a.source)
  else if a.target ∉ places ∧ a.target ∉ transitions then some (.unknownNode a.source a.target a.target)
  else if a.source ∈ places ↔ a.target ∈ places then some (.notBipartite a.source a.target)
  else none

theorem Arc.joins_of_fault? {a : Arc} {places transitions : List String}
    (h : a.fault? places transitions = none) : a.Joins places transitions := by
  unfold Arc.fault? at h
  unfold Arc.Joins
  grind

structure Net where
  id : String
  marking : Marking
  transitions : List Transition
  arcs : List Arc
  ascending : Ascending Transition.id transitions
  disjoint : ∀ t ∈ transitions, t.id ∉ marking.ids
  joins : ∀ a ∈ arcs, a.Joins marking.ids (transitions.map Transition.id)
deriving DecidableEq

def firstRepeat? (seen : List String) : List String → Option String
  | [] => none
  | a :: l => if a ∈ seen then some a else firstRepeat? (a :: seen) l

theorem nodup_of_firstRepeat? {seen l : List String} (h : firstRepeat? seen l = none) :
    l.Nodup ∧ ∀ a ∈ l, a ∉ seen := by
  induction l generalizing seen with
  | nil => simp
  | cons a l ih =>
    simp only [firstRepeat?] at h
    split at h
    · cases h
    · next ha =>
      obtain ⟨hl, hs⟩ := ih h
      refine ⟨List.nodup_cons.2 ⟨fun hal => hs a hal List.mem_cons_self, hl⟩, fun b hb => ?_⟩
      rcases List.mem_cons.1 hb with rfl | hb
      · exact ha
      · exact fun hbs => hs b hb (List.mem_cons_of_mem a hbs)

namespace Net

theorem eq_of_id_eq {nodes : List Node} (h : (nodes.map Node.id).Nodup) {x y : Node} (hx : x ∈ nodes)
    (hy : y ∈ nodes) (hid : x.id = y.id) : x = y := by
  induction nodes with
  | nil => simp at hx
  | cons z nodes ih =>
    simp only [List.map_cons, List.nodup_cons, List.mem_map, not_exists, not_and] at h
    rcases List.mem_cons.1 hx with hxz | hx <;> rcases List.mem_cons.1 hy with hyz | hy
    · exact hxz.trans hyz.symm
    · exact absurd (hid.symm.trans (congrArg Node.id hxz)) (h.1 y hy)
    · exact absurd (hid.trans (congrArg Node.id hyz)) (h.1 x hx)
    · exact ih h.2 hx hy

theorem disjoint_of_nodup {nodes : List Node} (h : (nodes.map Node.id).Nodup) :
    ∀ t ∈ Sorted.ofListBy Transition.id (nodes.filterMap Node.transition?),
      t.id ∉ (Marking.ofPlaces (nodes.filterMap Node.place?)).ids := by
  intro t ht hp
  obtain ⟨p, hp, hpt⟩ := List.mem_map.1 hp
  obtain ⟨x, hx, hxt⟩ := List.mem_filterMap.1 (Sorted.mem_of_mem_ofListBy ht)
  obtain ⟨y, hy, hyp⟩ := List.mem_filterMap.1 (Sorted.mem_of_mem_ofListBy hp)
  have hid : x.id = y.id := by
    cases x <;> cases y <;> simp_all [Node.place?, Node.transition?, Node.id]
  obtain rfl := eq_of_id_eq h hx hy hid
  cases x <;> simp_all [Node.place?, Node.transition?]

/-- The net with the given nodes and arcs. A repeated id is reported before any arc, and the arcs in order. -/
def build (id : String) (nodes : List Node) (arcs : List Arc) : Except Error Net :=
  match hn : firstRepeat? [] (nodes.map Node.id) with
  | some id => .error (.duplicateNode id)
  | none =>
    let marking := Marking.ofPlaces (nodes.filterMap Node.place?)
    let transitions := Sorted.ofListBy Transition.id (nodes.filterMap Node.transition?)
    match ha : arcs.findSome? fun a => a.fault? marking.ids (transitions.map Transition.id) with
    | some fault => .error fault
    | none => .ok {
        id, marking, transitions, arcs
        ascending := Sorted.ascending_ofListBy _ _
        disjoint := disjoint_of_nodup (nodup_of_firstRepeat? hn).1
        joins := fun a h => Arc.joins_of_fault? (List.findSome?_eq_none_iff.1 ha a h) }

def place? (N : Net) (id : String) : Option Place :=
  N.marking.place? id

def transition? (N : Net) (id : String) : Option Transition :=
  N.transitions.find? fun t => t.id = id

def node? (N : Net) (id : String) : Option Node :=
  match N.place? id with
  | some p => some (.place p)
  | none => (N.transition? id).map .transition

def nodes (N : Net) : List Node :=
  Sorted.ofListBy Node.id (N.marking.places.map .place ++ N.transitions.map .transition)

def incoming (N : Net) (id : String) : List Arc :=
  N.arcs.filter fun a => a.target = id

def outgoing (N : Net) (id : String) : List Arc :=
  N.arcs.filter fun a => a.source = id

def successors (N : Net) (id : String) : List String :=
  Sorted.ofList ((N.outgoing id).map Arc.target)

def withMarking (N : Net) (m : Marking) : Net :=
  { N with
    marking := N.marking.override m
    disjoint := by simpa using N.disjoint
    joins := by simpa using N.joins }

end Net

structure Site where
  net : Net
  place : Place

namespace Site

def isSink (s : Site) : Bool :=
  (s.net.outgoing s.place.id).isEmpty

def isSource (s : Site) : Bool :=
  (s.net.incoming s.place.id).isEmpty

def following (s : Site) : List Transition :=
  (s.net.successors s.place.id).filterMap s.net.transition?

end Site

end Petri
