import Mathlib
import Petri.Proofs.Net.Nodes
import Petri.Proofs.Path.Trail
import Petri.Path.PathSet

/-! The live part of a net: its places, the transitions that fire somewhere, and the arcs between them. -/

namespace Petri

namespace PathSet

variable {N : Net} {G : MarkingGraph} {P : PathSet} {budget : Budget} {a b n : String} {p : List String}

/-- `n` is a place, or a transition that fires somewhere in `G`. -/
def Live (N : Net) (G : MarkingGraph) (n : String) : Prop :=
  N.IsNode .state n ∨ (N.IsNode .transition n ∧ ∃ e ∈ G.edges.toList, e.fired = n)

def LiveArc (N : Net) (G : MarkingGraph) (a b : String) : Prop :=
  ⟨a, b⟩ ∈ N.arcs ∧ Live N G a ∧ Live N G b

lemma mem_fired : n ∈ G.fired ↔ ∃ e ∈ G.edges.toList, e.fired = n := by
  simp [MarkingGraph.fired]

lemma mem_liveNodes : n ∈ liveNodes N G.fired ↔ Live N G n := by
  rw [Live, Net.isNode_state, Net.isNode_transition, ← mem_fired]
  simp only [liveNodes, List.mem_map, List.mem_filter, Net.mem_nodes]
  constructor
  · rintro ⟨x, ⟨⟨q, hq, rfl⟩ | ⟨t, ht, rfl⟩, hx⟩, rfl⟩
    · exact Or.inl (List.mem_map.mpr ⟨q, hq, rfl⟩)
    · exact Or.inr ⟨⟨t, ht, rfl⟩, by simpa [Node.id] using hx⟩
  · rintro (hn | ⟨⟨t, ht, rfl⟩, hf⟩)
    · obtain ⟨q, hq, rfl⟩ := List.mem_map.mp hn
      exact ⟨.place q, ⟨Or.inl ⟨q, hq, rfl⟩, rfl⟩, rfl⟩
    · exact ⟨.transition t, ⟨Or.inr ⟨t, ht, rfl⟩, by simpa using hf⟩, rfl⟩

lemma nodup_liveNodes (N : Net) (fired : List String) : (liveNodes N fired).Nodup := by
  have hids : (N.nodes.map Node.id).Nodup := Sorted.nodup_keys (Sorted.ascending_ofListBy _ _)
  exact hids.sublist (List.filter_sublist.map _)

def follow (G : MarkingGraph) (n : String) : List String :=
  (G.initial.successors n).filter (liveNodes G.initial G.fired).contains

lemma mem_follow : b ∈ follow G a ↔ ⟨a, b⟩ ∈ G.initial.arcs ∧ Live G.initial G b := by
  simp only [follow, List.mem_filter, Net.mem_successors, List.contains_iff_mem, mem_liveNodes]

lemma follow_closed : ∀ a ∈ liveNodes G.initial G.fired, ∀ b ∈ follow G a, b ∈ liveNodes G.initial G.fired := by
  intro a _ b hb
  exact mem_liveNodes.mpr (mem_follow.mp hb).2

def onward (G : MarkingGraph) (v : ℕ) : List ℕ :=
  Sorted.ofList (G.successors v)

def all (G : MarkingGraph) : PathSet where
  net := G.initial
  markingPaths := (Trail.start (List.range G.adjacency.size) 0).paths (onward G)
  nodePaths := (liveNodes G.initial G.fired).flatMap fun s =>
    (Trail.start (liveNodes G.initial G.fired) s).paths (follow G)

lemma ofGraph_eq (budget : Budget) (G : MarkingGraph) : ofGraph budget G = do
    Resource.paths.within budget.paths (all G).markingPaths.length
    Resource.paths.within budget.paths (all G).nodePaths.length
    return all G := by
  have hmarkings : pathsFrom (List.range G.adjacency.size) (onward G) budget.paths #[] 0 = _ :=
    pathsFrom_eq (within_zero _ _) 0
  have hnodes : (liveNodes G.initial G.fired).foldlM
      (pathsFrom (liveNodes G.initial G.fired) (follow G) budget.paths) #[] = _ :=
    foldlM_pathsFrom (within_zero _ _) _
  rw [listed_empty] at hmarkings hnodes
  have hofGraph : ofGraph budget G =
      pathsFrom (List.range G.adjacency.size) (onward G) budget.paths #[] 0 >>= fun markingPaths =>
        (liveNodes G.initial G.fired).foldlM
          (pathsFrom (liveNodes G.initial G.fired) (follow G) budget.paths) #[] >>= fun nodePaths =>
            .ok ⟨G.initial, markingPaths.toList, nodePaths.toList⟩ := rfl
  rw [hofGraph, hmarkings, hnodes]
  simp only [bind_assoc]
  rfl

lemma eq_all_of_ofGraph (h : ofGraph budget G = .ok P) : P = all G := by
  rw [ofGraph_eq] at h
  obtain ⟨_, _, h⟩ := bind_eq_ok.mp h
  obtain ⟨_, _, h⟩ := bind_eq_ok.mp h
  cases h
  rfl

lemma ofGraph_ok (h : ofGraph budget G = .ok P) : P.net = G.initial ∧
    P.nodePaths = (liveNodes G.initial G.fired).flatMap fun s =>
      (Trail.start (liveNodes G.initial G.fired) s).paths (follow G) := by
  obtain rfl := eq_all_of_ofGraph h
  exact ⟨rfl, rfl⟩

lemma mem_nodePaths : p ∈ (all G).nodePaths ↔
    ∃ n, Live G.initial G n ∧ p.head? = some n ∧ Trail.IsMaximal (follow G) p := by
  simp only [all, List.mem_flatMap]
  refine exists_congr fun s => ?_
  rw [mem_liveNodes]
  refine and_congr_right fun hs => ?_
  exact Trail.mem_paths_start (nodup_liveNodes _ _) follow_closed (mem_liveNodes.mpr hs)

lemma mem_startingAt (h : ofGraph budget G = .ok P) : p ∈ P.startingAt n ↔
    Live G.initial G n ∧ p.head? = some n ∧ Trail.IsMaximal (follow G) p := by
  have hall : P.nodePaths = (all G).nodePaths := (ofGraph_ok h).2
  rw [startingAt, hall, List.mem_filter, mem_nodePaths, decide_eq_true_eq]
  constructor
  · rintro ⟨⟨s, hs, hps, hmax⟩, hhead⟩
    obtain rfl : s = n := Option.some.inj (hps.symm.trans hhead)
    exact ⟨hs, hhead, hmax⟩
  · rintro ⟨hlive, hhead, hmax⟩
    exact ⟨⟨n, hlive, hhead, hmax⟩, hhead⟩

lemma live_of_isChain (hn : Live G.initial G n) (hhead : p.head? = some n)
    (hp : p.IsChain fun a b => b ∈ follow G a) : ∀ a ∈ p, Live G.initial G a := by
  apply hp.induction (Live G.initial G) p fun _ _ hb _ => (mem_follow.mp hb).2
  intro hne
  rw [List.head?_eq_some_head hne, Option.some.injEq] at hhead
  rwa [hhead]

lemma isChain_liveArc (hn : Live G.initial G n) (hhead : p.head? = some n)
    (hp : p.IsChain fun a b => b ∈ follow G a) : p.IsChain (LiveArc G.initial G) := by
  refine hp.imp_of_mem_imp fun a b ha _ hab => ?_
  obtain ⟨harc, hb⟩ := mem_follow.mp hab
  exact ⟨harc, live_of_isChain hn hhead hp a ha, hb⟩

lemma isChain_of_mem_startingAt (h : ofGraph budget G = .ok P) (hp : p ∈ P.startingAt n) :
    p.head? = some n ∧ p.IsChain (LiveArc G.initial G) := by
  obtain ⟨hlive, hhead, hmax⟩ := (mem_startingAt h).mp hp
  exact ⟨hhead, isChain_liveArc hlive hhead hmax.chain⟩

lemma exists_mem_startingAt (h : ofGraph budget G = .ok P) (hn : Live G.initial G n) (hhead : p.head? = some n)
    (hnodup : p.dropLast.Nodup) (hp : p.IsChain (LiveArc G.initial G)) : ∃ q ∈ P.startingAt n, p <+: q := by
  have hne : p ≠ [] := by
    rintro rfl
    cases hhead
  have hchain : p.IsChain fun a b => b ∈ follow G a :=
    hp.imp fun a b harc => mem_follow.mpr ⟨harc.1, harc.2.2⟩
  have hlive : ∀ a ∈ p, a ∈ liveNodes G.initial G.fired := fun a ha =>
    mem_liveNodes.mpr (live_of_isChain hn hhead hchain a ha)
  obtain ⟨q, hpq, hmax⟩ := Trail.exists_isMaximal_of_dropLast (nodup_liveNodes _ _) follow_closed hne hnodup hchain hlive
  refine ⟨q, (mem_startingAt h).mpr ⟨hn, ?_, hmax⟩, hpq⟩
  obtain ⟨rest, rfl⟩ := hpq
  rw [List.head?_append, hhead]
  rfl

end PathSet

end Petri
