import Mathlib
import Petri.Proofs.Adjacency
import Petri.MarkingGraph.Basic

/-! The parts of a marking graph agree: the index finds each vertex by its marking, and the adjacency lists hold the
positions of the edges that leave a vertex. -/

namespace Petri.MarkingGraph

variable {G : MarkingGraph} {N M : Net} {m : Marking} {i j v : ℕ}

def leaving (v : ℕ) (edges : List Edge) : List (ℕ × ℕ) :=
  (edges.zipIdx.filter fun e => e.1.source = v).map fun e => (e.1.target, e.2)

def markings (G : MarkingGraph) : List Marking :=
  G.vertices.toList.map Net.marking

lemma mem_markings : m ∈ G.markings ↔ ∃ (i : ℕ) (M : Net), G.vertices[i]? = some M ∧ M.marking = m := by
  simp only [markings, List.mem_iff_getElem?, List.getElem?_map, Array.getElem?_toList, Option.map_eq_some_iff]

structure Consistent (G : MarkingGraph) : Prop where
  size : G.adjacency.size = G.vertices.size
  find : ∀ m i, G.find? m = some i ↔ ∃ N, G.vertices[i]? = some N ∧ N.marking = m
  rows : ∀ v, G.adjacency.edges v = leaving v G.edges.toList

lemma leaving_concat (v : ℕ) (edges : List Edge) (e : Edge) :
    leaving v (edges ++ [e]) =
      if e.source = v then leaving v edges ++ [(e.target, edges.length)] else leaving v edges := by
  simp only [leaving, List.zipIdx_append, List.filter_append, List.map_append]
  split
  · next h => simp [h]
  · next h => simp [h]

lemma leaving_eq_nil_iff {edges : List Edge} : leaving v edges = [] ↔ ∀ e ∈ edges, e.source ≠ v := by
  simp only [leaving, List.map_eq_nil_iff, List.filter_eq_nil_iff, decide_eq_true_eq]
  constructor
  · intro h e he
    obtain ⟨k, hk⟩ := List.mem_iff_getElem?.mp he
    exact h (e, k) (List.mem_zipIdx_iff_getElem?.mpr hk)
  · rintro h ⟨e, k⟩ he
    exact h e (List.mem_of_getElem? (List.mem_zipIdx_iff_getElem?.mp he))

lemma consistent_ofNet (N : Net) : (ofNet N).Consistent where
  size := by simp [ofNet]
  find m i := by
    rw [find?_ofNet]
    cases i with
    | zero => simp [ofNet]
    | succ i => simp [ofNet]
  rows v := by simp [ofNet, leaving]

lemma Consistent.find_eq_none (h : G.Consistent) :
    G.find? m = none ↔ ∀ (i : ℕ) (N : Net), G.vertices[i]? = some N → N.marking ≠ m := by
  rw [Option.eq_none_iff_forall_ne_some]
  constructor
  · intro hm i N hi hN
    exact hm i ((h.find m i).mpr ⟨N, hi, hN⟩)
  · intro hm i hi
    obtain ⟨N, hN, hNm⟩ := (h.find m i).mp hi
    exact hm i N hN hNm

lemma Consistent.injective (h : G.Consistent) (hi : G.vertices[i]? = some N) (hj : G.vertices[j]? = some M)
    (he : N.marking = M.marking) : i = j := by
  have h1 := (h.find _ i).mpr ⟨N, hi, he⟩
  have h2 := (h.find _ j).mpr ⟨M, hj, rfl⟩
  exact Option.some.inj (h1.symm.trans h2)

lemma Consistent.nodup_markings (h : G.Consistent) : G.markings.Nodup := by
  rw [markings, List.nodup_iff_injective_get]
  intro i j hij
  have hi := i.isLt
  have hj := j.isLt
  simp only [List.length_map, Array.length_toList] at hi hj
  apply Fin.ext
  apply h.injective (Array.getElem?_eq_getElem hi) (Array.getElem?_eq_getElem hj)
  simpa using hij

lemma Consistent.insert (h : G.Consistent) (N : Net) :
    (∃ (i : ℕ) (M : Net), G.insert N = (i, false, G) ∧ G.vertices[i]? = some M ∧ M.marking = N.marking) ∨
      ((∀ (i : ℕ) (M : Net), G.vertices[i]? = some M → M.marking ≠ N.marking) ∧
        ∃ H, G.insert N = (G.vertices.size, true, H) ∧ H.Consistent ∧
          H.vertices = G.vertices.push N ∧ H.edges = G.edges) := by
  have hfind := find?_insert G N
  unfold MarkingGraph.insert at hfind ⊢
  cases hf : G.find? N.marking with
  | some i =>
    obtain ⟨M, hM, hMN⟩ := (h.find _ i).mp hf
    exact Or.inl ⟨i, M, rfl, hM, hMN⟩
  | none =>
    have hnew := h.find_eq_none.mp hf
    simp only [hf] at hfind
    refine Or.inr ⟨hnew, _, Prod.ext h.size rfl, ⟨?_, ?_, ?_⟩, rfl, rfl⟩
    · simp [h.size]
    · intro m i
      rw [hfind, h.size, Array.getElem?_push]
      by_cases hi : i = G.vertices.size
      · subst hi
        simp only [if_true, Option.some.injEq, exists_eq_left']
        constructor
        · intro he
          by_contra hne
          rw [if_neg hne, h.find] at he
          obtain ⟨K, hK, _⟩ := he
          simp at hK
        · intro he
          rw [if_pos he]
      · rw [if_neg hi]
        by_cases hm : N.marking = m
        · subst hm
          simp only [if_true, Option.some.injEq]
          constructor
          · intro he
            exact absurd he.symm hi
          · rintro ⟨K, hK, hKm⟩
            exact absurd hKm (hnew i K hK)
        · rw [if_neg hm, h.find]
    · intro v
      simp [h.rows]

@[simp] lemma vertices_link (s t : ℕ) (fired : String) : (G.link s t fired).vertices = G.vertices := rfl

@[simp] lemma toList_edges_link (s t : ℕ) (fired : String) :
    (G.link s t fired).edges.toList = G.edges.toList ++ [⟨s, t, fired⟩] := by
  simp [link]

lemma Consistent.link (h : G.Consistent) {s t : ℕ} (hs : s < G.vertices.size) (ht : t < G.vertices.size)
    (fired : String) : (G.link s t fired).Consistent where
  size := by
    have := h.size
    simp only [MarkingGraph.link, Adjacency.size_add]
    omega
  find := h.find
  rows v := by
    rw [toList_edges_link, leaving_concat, ← h.rows]
    simp only [MarkingGraph.link, Adjacency.edges_add, Array.length_toList]
    by_cases hv : v = s
    · rw [if_pos hv, if_pos hv.symm]
    · rw [if_neg hv, if_neg (Ne.symm hv)]

lemma Consistent.mem_finals (h : G.Consistent) :
    v ∈ G.finals ↔ v < G.vertices.size ∧ ∀ e ∈ G.edges.toList, e.source ≠ v := by
  simp only [finals, List.mem_filter, List.mem_range, Adjacency.outDegree, h.rows, decide_eq_true_eq,
    List.length_eq_zero_iff, leaving_eq_nil_iff]

end Petri.MarkingGraph
