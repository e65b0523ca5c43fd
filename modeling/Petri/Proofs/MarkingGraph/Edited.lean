import Mathlib
import Petri.Proofs.MarkingGraph.Exploration
import Petri.Proofs.MarkingGraph.Representation

/-! Graphs that are put together by hand, where an edge may join numbers at which there is no vertex. -/

namespace Petri.MarkingGraph

variable {G H : MarkingGraph} {N M : Net} {t : Transition} {limit : Option ℕ} {v w visits : ℕ}

/-- Built from one vertex by insertions, and by edges between any numbers. -/
inductive Edited : MarkingGraph → Prop
  | ofNet (N : Net) : Edited (ofNet N)
  | insert {G : MarkingGraph} (N : Net) : Edited G → Edited (G.insert N).2.2
  | link {G : MarkingGraph} (s t : ℕ) (fired : String) : Edited G → Edited (G.link s t fired)

lemma Edited.expand (h : Edited G) (hok : expand limit v M G t = .ok H) : Edited H := by
  cases hf : M.fire t.id with
  | error e =>
    rw [expand_of_error hf] at hok
    cases hok
  | ok K =>
    rw [expand_of_ok hf] at hok
    obtain ⟨_, _, hok⟩ := bind_eq_ok.mp hok
    cases hok
    exact .link _ _ _ (.insert K h)

lemma Edited.visit (h : Edited G) (hok : visit limit visits v G = .ok H) : Edited H := by
  induction visits generalizing v G with
  | zero =>
    cases hok
    exact h
  | succ visits ih =>
    rw [MarkingGraph.visit] at hok
    split at hok
    · cases hok
      exact h
    · obtain ⟨G', hG', hH⟩ := bind_eq_ok.mp hok
      exact ih (foldlM_induction hG' h fun _ _ _ _ => Edited.expand) hH

lemma edited_explore {budget : Budget} (hok : explore budget N = .ok G) : Edited G :=
  Edited.visit (.ofNet N) hok

def Leads (G : MarkingGraph) (v w : ℕ) : Prop :=
  ∃ e ∈ G.edges.toList, e.source = v ∧ e.target = w

structure Tracked (G : MarkingGraph) : Prop where
  rows : ∀ v, G.adjacency.edges v = leaving v G.edges.toList
  vertices_le : G.vertices.size ≤ G.adjacency.size
  ends_lt : ∀ e ∈ G.edges.toList, e.source < G.adjacency.size ∧ e.target < G.adjacency.size

lemma insert_cases (G : MarkingGraph) (N : Net) : (∃ i, G.insert N = (i, false, G)) ∨
    ∃ H, G.insert N = (G.adjacency.size, true, H) ∧ H.vertices = G.vertices.push N ∧ H.edges = G.edges ∧
      H.adjacency = G.adjacency.grow := by
  unfold insert
  split
  · exact Or.inl ⟨_, rfl⟩
  · exact Or.inr ⟨_, rfl, rfl, rfl, rfl⟩

lemma tracked_ofNet (N : Net) : (ofNet N).Tracked where
  rows v := by simp [ofNet, leaving]
  vertices_le := by simp [ofNet]
  ends_lt := by simp [ofNet]

lemma Tracked.insert (h : G.Tracked) (N : Net) : (G.insert N).2.2.Tracked := by
  rcases insert_cases G N with ⟨i, hi⟩ | ⟨H, hi, hvertices, hedges, hadjacency⟩
  · rw [hi]
    exact h
  · rw [hi]
    refine ⟨?_, ?_, ?_⟩
    · simpa [hedges, hadjacency] using h.rows
    · simpa [hvertices, hadjacency] using h.vertices_le
    · intro e he
      rw [hedges] at he
      have hlt := h.ends_lt e he
      simp only [hadjacency, Adjacency.size_grow]
      omega

lemma Tracked.link (h : G.Tracked) (s t : ℕ) (fired : String) : (G.link s t fired).Tracked := by
  have hsize : (G.link s t fired).adjacency.size = max G.adjacency.size (max s t + 1) := Adjacency.size_add _ s t _
  have hle := h.vertices_le
  refine ⟨fun v => ?_, ?_, fun e he => ?_⟩
  · rw [toList_edges_link, leaving_concat, ← h.rows]
    simp only [MarkingGraph.link, Adjacency.edges_add, Array.length_toList, eq_comm]
  · rw [hsize, vertices_link]
    omega
  · rw [toList_edges_link, List.mem_append, List.mem_singleton] at he
    rw [hsize]
    rcases he with he | rfl
    · have hlt := h.ends_lt e he
      omega
    · dsimp only
      omega

lemma Edited.tracked (h : Edited G) : G.Tracked := by
  induction h with
  | ofNet N => exact tracked_ofNet N
  | insert N _ ih => exact ih.insert N
  | link s t fired _ ih => exact ih.link s t fired

lemma Tracked.mem_successors (h : G.Tracked) : w ∈ G.successors v ↔ G.Leads v w := by
  rw [successors, Adjacency.targets, h.rows, map_fst_leaving]
  simp only [Leads, List.mem_map, List.mem_filter, decide_eq_true_eq, and_assoc]

end Petri.MarkingGraph
