import Mathlib
import Petri.Proofs.Firing

/-! The nodes of a net by their ids: a place or a transition, and an arc leads from one kind to the other. -/

namespace Petri

lemma Transition.satisfies_iff {t : Transition} {condition : Context → Bool} :
    t.satisfies condition = true ↔ ∃ context, t.context = some context ∧ condition context = true := by
  rw [Transition.satisfies, Option.any_eq_true]

namespace Net

variable {N : Net} {n : String} {d d' : Domain}

def IsNode (N : Net) (d : Domain) (n : String) : Prop :=
  ∃ x, N.node? n = some x ∧ x.domain = d

lemma place?_eq_some_iff {p : Place} : N.place? n = some p ↔ p ∈ N.marking.places ∧ p.id = n :=
  Marking.place?_eq_some_iff

lemma node?_eq_place {p : Place} : N.node? n = some (.place p) ↔ p ∈ N.marking.places ∧ p.id = n := by
  rw [node?, ← place?_eq_some_iff]
  cases N.place? n <;> simp

lemma node?_eq_transition {t : Transition} : N.node? n = some (.transition t) ↔ t ∈ N.transitions ∧ t.id = n := by
  rw [node?]
  cases hp : N.place? n with
  | some p =>
    obtain ⟨hmem, rfl⟩ := place?_eq_some_iff.mp hp
    constructor
    · intro h
      cases h
    · rintro ⟨ht, htp⟩
      exact absurd (List.mem_map.mpr ⟨p, hmem, htp.symm⟩) (N.disjoint t ht)
  | none => simp [← transition?_eq_some_iff]

lemma isNode_state : N.IsNode .state n ↔ n ∈ N.marking.ids := by
  rw [IsNode, Marking.ids, List.mem_map]
  constructor
  · rintro ⟨x, hx, hd⟩
    cases x with
    | place p => exact ⟨p, node?_eq_place.mp hx⟩
    | transition t => cases hd
  · rintro ⟨p, hp⟩
    exact ⟨.place p, node?_eq_place.mpr hp, rfl⟩

lemma isNode_transition : N.IsNode .transition n ↔ n ∈ N.transitions.map Transition.id := by
  rw [IsNode, List.mem_map]
  constructor
  · rintro ⟨x, hx, hd⟩
    cases x with
    | place p => cases hd
    | transition t => exact ⟨t, node?_eq_transition.mp hx⟩
  · rintro ⟨t, ht⟩
    exact ⟨.transition t, node?_eq_transition.mpr ht, rfl⟩

lemma IsNode.unique (h : N.IsNode d n) (h' : N.IsNode d' n) : d = d' := by
  obtain ⟨x, hx, rfl⟩ := h
  obtain ⟨y, hy, rfl⟩ := h'
  rw [hx, Option.some.injEq] at hy
  rw [hy]

lemma IsNode.other {a b : String} (h : N.IsNode d a) (harc : ⟨a, b⟩ ∈ N.arcs) : N.IsNode d.other b := by
  have hj := N.joins _ harc
  rw [Arc.Joins, ← isNode_state, ← isNode_state, ← isNode_transition, ← isNode_transition] at hj
  rcases hj with ⟨ha, hb⟩ | ⟨ha, hb⟩
  · obtain rfl := h.unique ha
    exact hb
  · obtain rfl := h.unique ha
    exact hb

lemma nodup_node_ids (N : Net) :
    ((N.marking.places.map Node.place ++ N.transitions.map Node.transition).map Node.id).Nodup := by
  have hp : (N.marking.places.map Node.place).map Node.id = N.marking.ids := by simp [Marking.ids, Node.id]
  have ht : (N.transitions.map Node.transition).map Node.id = N.transitions.map Transition.id := by simp [Node.id]
  rw [List.map_append, hp, ht]
  refine List.nodup_append.mpr ⟨N.marking.nodup_ids, Sorted.nodup_keys N.ascending, ?_⟩
  rintro a ha b hb rfl
  obtain ⟨t, htmem, rfl⟩ := List.mem_map.mp hb
  exact N.disjoint t htmem ha

lemma mem_nodes {x : Node} : x ∈ N.nodes ↔
    (∃ p ∈ N.marking.places, x = .place p) ∨ ∃ t ∈ N.transitions, x = .transition t := by
  rw [nodes, Sorted.mem_ofListBy N.nodup_node_ids, List.mem_append, List.mem_map, List.mem_map]
  simp only [eq_comm]

lemma mem_successors {a b : String} : b ∈ N.successors a ↔ ⟨a, b⟩ ∈ N.arcs := by
  simp only [successors, Sorted.mem_ofList, outgoing, List.mem_map, List.mem_filter, decide_eq_true_eq]
  constructor
  · rintro ⟨arc, ⟨harc, rfl⟩, rfl⟩
    exact harc
  · intro h
    exact ⟨_, ⟨h, rfl⟩, rfl⟩

lemma mem_node_ids : n ∈ N.nodes.map Node.id ↔ n ∈ N.marking.ids ∨ n ∈ N.transitions.map Transition.id := by
  simp only [List.mem_map, mem_nodes, Marking.ids]
  constructor
  · rintro ⟨x, ⟨p, hp, rfl⟩ | ⟨t, ht, rfl⟩, rfl⟩
    · exact Or.inl ⟨p, hp, rfl⟩
    · exact Or.inr ⟨t, ht, rfl⟩
  · rintro (⟨p, hp, rfl⟩ | ⟨t, ht, rfl⟩)
    · exact ⟨.place p, Or.inl ⟨p, hp, rfl⟩, rfl⟩
    · exact ⟨.transition t, Or.inr ⟨t, ht, rfl⟩, rfl⟩

end Net

end Petri
