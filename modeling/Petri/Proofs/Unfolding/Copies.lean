import Mathlib
import Petri.Proofs.Net.Build
import Petri.Proofs.Run
import Petri.Unfolding

/-! What an unfolded net is made of. The arcs of a copy are those of its transition, inputs first. -/

namespace Petri

namespace Unfolding

variable {N U M K : Net} {G : MarkingGraph} {t u : Transition} {c p : String}

def copies (N : Net) (G : MarkingGraph) : List (Transition × String) :=
  (allCopies (copyCount G) (N.nodes.map Node.id) N.transitions).flatMap fun (t, names) => names.map (Prod.mk t)

def rename (t : Transition) (c : String) : Transition :=
  { t with id := c }

lemma lt_append_cons (l r : List Char) (a : Char) : l < l ++ a :: r := by
  induction l with
  | nil => simp
  | cons b l ih => simpa using ih

lemma lt_copyName (id : String) (number : ℕ) : id < copyName id number := by
  rw [copyName, String.append_assoc, String.lt_iff_toList_lt]
  simpa using lt_append_cons id.toList _ _

lemma lt_of_mem_copyNames {id : String} {taken : List String} {number count : ℕ}
    (h : c ∈ copyNames id taken number count) : id < c := by
  induction count generalizing taken number with
  | zero => cases h
  | succ count ih =>
    rcases List.mem_cons.mp h with rfl | h
    · exact lt_copyName id _
    · exact ih h

lemma mem_allCopies {count : Transition → ℕ} {taken : List String} {ts : List Transition} {names : List String}
    (h : (t, names) ∈ allCopies count taken ts) :
    t ∈ ts ∧ t.id ∈ names ∧ ∀ c ∈ names, c = t.id ∨ t.id < c := by
  induction ts generalizing taken with
  | nil => cases h
  | cons u ts ih =>
    rcases List.mem_cons.mp h with h | h
    · cases h
      refine ⟨List.mem_cons_self, List.mem_cons_self, fun c hc => ?_⟩
      exact (List.mem_cons.mp hc).imp id lt_of_mem_copyNames
    · obtain ⟨ht, hnames⟩ := ih h
      exact ⟨List.mem_cons_of_mem u ht, hnames⟩

lemma map_fst_allCopies (count : Transition → ℕ) (taken : List String) (ts : List Transition) :
    (allCopies count taken ts).map Prod.fst = ts := by
  induction ts generalizing taken with
  | nil => rfl
  | cons t ts ih => rw [allCopies, List.map_cons, ih]

lemma mem_copies : (t, c) ∈ copies N G ↔
    ∃ names, (t, names) ∈ allCopies (copyCount G) (N.nodes.map Node.id) N.transitions ∧ c ∈ names := by
  simp [copies]

structure IsUnfolding (N : Net) (cs : List (Transition × String)) (U : Net) : Prop where
  marking : U.marking = N.marking
  arcs : U.arcs = cs.flatMap fun c => copyArcs N c.1.id c.2
  mem_transitions : ∀ u, u ∈ U.transitions ↔ ∃ t c, (t, c) ∈ cs ∧ rename t c = u
  names_nodup : (cs.map Prod.snd).Nodup
  original : ∀ t c, (t, c) ∈ cs → t ∈ N.transitions ∧ (c = t.id ∨ t.id < c)
  self_mem : ∀ t ∈ N.transitions, (t, t.id) ∈ cs

def unfoldedNodes (N : Net) (cs : List (Transition × String)) : List Node :=
  N.marking.places.map .place ++ cs.map fun c => .transition (rename c.1 c.2)

section

variable (N : Net) (cs : List (Transition × String))

lemma filterMap_place?_unfoldedNodes : (unfoldedNodes N cs).filterMap Node.place? = N.marking.places := by
  simp [unfoldedNodes, List.filterMap_map, Function.comp_def, Node.place?]

lemma filterMap_transition?_unfoldedNodes :
    (unfoldedNodes N cs).filterMap Node.transition? = cs.map fun c => rename c.1 c.2 := by
  simp [unfoldedNodes, List.filterMap_map, Function.comp_def, Node.transition?]

lemma map_id_unfoldedNodes : (unfoldedNodes N cs).map Node.id = N.marking.ids ++ cs.map Prod.snd := by
  rw [unfoldedNodes, List.map_append, List.map_map, List.map_map]
  rfl

end

lemma mem_ofListBy_rename {cs : List (Transition × String)} (h : (cs.map Prod.snd).Nodup) :
    u ∈ Sorted.ofListBy Transition.id (cs.map fun c => rename c.1 c.2) ↔ ∃ t c, (t, c) ∈ cs ∧ rename t c = u := by
  have hids : (cs.map fun c => rename c.1 c.2).map Transition.id = cs.map Prod.snd := by
    rw [List.map_map]
    rfl
  rw [Sorted.mem_ofListBy (hids ▸ h), List.mem_map, Prod.exists]

lemma unfolding_eq (budget : Budget) (N : Net) :
    N.unfolding budget = MarkingGraph.explore budget N >>= fun G => Net.build (N.id ++ "#unfolded")
      (unfoldedNodes N (copies N G)) ((copies N G).flatMap fun c => copyArcs N c.1.id c.2) := by
  simp only [Net.unfolding, unfoldedNodes, copies, rename, List.map_flatMap, List.map_map, Function.comp_def,
    List.flatMap_assoc, List.flatMap_map]

lemma unfolding_ok {budget : Budget} (h : N.unfolding budget = .ok U) :
    ∃ G, MarkingGraph.explore budget N = .ok G ∧ IsUnfolding N (copies N G) U := by
  rw [unfolding_eq] at h
  obtain ⟨G, hG, h⟩ := bind_eq_ok.mp h
  obtain ⟨_, hnodup, hmarking, htransitions, harcs⟩ := Net.build_ok h
  rw [map_id_unfoldedNodes, List.nodup_append] at hnodup
  rw [filterMap_place?_unfoldedNodes, N.marking.ofPlaces_places] at hmarking
  rw [filterMap_transition?_unfoldedNodes] at htransitions
  refine ⟨G, hG, ⟨hmarking, harcs, fun u => ?_, hnodup.2.1, ?_, ?_⟩⟩
  · rw [htransitions, mem_ofListBy_rename hnodup.2.1]
  · intro t c hc
    obtain ⟨names, hnames, hc⟩ := mem_copies.mp hc
    obtain ⟨ht, _, hlt⟩ := mem_allCopies hnames
    exact ⟨ht, hlt c hc⟩
  · intro t ht
    rw [← map_fst_allCopies (copyCount G) (N.nodes.map Node.id) N.transitions] at ht
    obtain ⟨⟨_, names⟩, hnames, rfl⟩ := List.mem_map.mp ht
    exact mem_copies.mpr ⟨names, hnames, (mem_allCopies hnames).2.1⟩

end Unfolding

end Petri
