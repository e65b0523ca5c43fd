import Mathlib
import Petri.Proofs.MarkingGraph.Consistent

/-! The index, the adjacency lists, the vertices and the edges of a graph tell the same story, in whatever order they
came. -/

namespace Petri.MarkingGraph

variable {G : MarkingGraph} {v : ℕ}

inductive Built : MarkingGraph → Prop
  | ofNet (N : Net) : Built (ofNet N)
  | insert {G : MarkingGraph} (N : Net) : Built G → Built (G.insert N).2.2
  | link {G : MarkingGraph} {s t : ℕ} (fired : String) : Built G → s < G.vertices.size → t < G.vertices.size →
      Built (G.link s t fired)

lemma Built.consistent (h : Built G) : G.Consistent := by
  induction h with
  | ofNet N => exact consistent_ofNet N
  | insert N _ ih =>
    rcases ih.insert N with ⟨i, M, hi, _⟩ | ⟨_, H, hi, hH, _⟩
    · rw [hi]
      exact ih
    · rw [hi]
      exact hH
  | link fired _ hs ht ih => exact ih.link hs ht fired

def edgesFrom (G : MarkingGraph) (v : ℕ) : List Edge :=
  G.edges.toList.filter fun e => e.source = v

lemma map_fst_zipIdx_filter (edges : List Edge) (v : ℕ) :
    (edges.zipIdx.filter fun e => e.1.source = v).map Prod.fst = edges.filter fun e => e.source = v := by
  have hmap := List.filter_map (p := fun e : Edge => decide (e.source = v)) (f := Prod.fst) (l := edges.zipIdx)
  rw [List.zipIdx_map_fst] at hmap
  exact hmap.symm

lemma Consistent.outgoing_eq (h : G.Consistent) (v : ℕ) : G.outgoing v = G.edgesFrom v := by
  have hposition : ∀ e ∈ G.edges.toList.zipIdx.filter (fun e => e.1.source = v), G.edges[e.2]? = some e.1 := by
    intro e he
    rw [← Array.getElem?_toList]
    exact List.mem_zipIdx_iff_getElem?.mp (List.mem_of_mem_filter he)
  calc
    G.outgoing v = (G.edges.toList.zipIdx.filter fun e => e.1.source = v).filterMap fun e => G.edges[e.2]? := by
      rw [outgoing, h.rows, leaving, List.filterMap_map]
      rfl
    _ = (G.edges.toList.zipIdx.filter fun e => e.1.source = v).filterMap fun e => some e.1 :=
      List.filterMap_congr hposition
    _ = (G.edges.toList.zipIdx.filter fun e => e.1.source = v).map Prod.fst := by
      rw [← List.filterMap_eq_map]
      rfl
    _ = G.edgesFrom v := map_fst_zipIdx_filter _ v

lemma map_fst_leaving (v : ℕ) (edges : List Edge) :
    (leaving v edges).map Prod.fst = (edges.filter fun e => e.source = v).map Edge.target := by
  rw [leaving, ← map_fst_zipIdx_filter, List.map_map, List.map_map]
  rfl

lemma Consistent.successors_eq (h : G.Consistent) (v : ℕ) : G.successors v = (G.edgesFrom v).map Edge.target := by
  rw [successors, Adjacency.targets, h.rows, map_fst_leaving, edgesFrom]

lemma Consistent.finals_eq (h : G.Consistent) :
    G.finals = (List.range G.vertices.size).filter fun v => G.edgesFrom v = [] := by
  apply List.filter_congr
  intro v _
  have hlength : G.adjacency.outDegree v = (G.edgesFrom v).length := by
    have hsuccessors := congrArg List.length (h.successors_eq v)
    simpa [successors, Adjacency.targets, Adjacency.outDegree] using hsuccessors
  simp only [hlength, List.length_eq_zero_iff]

lemma Consistent.insert_of_mem (h : G.Consistent) {i : ℕ} {M N : Net} (hi : G.vertices[i]? = some M)
    (hM : M.marking = N.marking) : G.insert N = (i, false, G) := by
  rcases h.insert N with ⟨j, L, hj, hL, hLN⟩ | ⟨hnew, _⟩
  · rw [hj, h.injective hi hL (hM.trans hLN.symm)]
  · exact absurd hM (hnew i M hi)

lemma Consistent.insert_of_notMem (h : G.Consistent) {N : Net} (hN : N.marking ∉ G.markings) :
    ∃ H, G.insert N = (G.vertices.size, true, H) ∧ H.Consistent ∧ H.vertices = G.vertices.push N ∧
      H.edges = G.edges := by
  rcases h.insert N with ⟨i, M, _, hM, hMN⟩ | ⟨_, hH⟩
  · exact absurd (mem_markings.mpr ⟨i, M, hM, hMN⟩) hN
  · exact hH

lemma tryLink_of_lt {s t n : ℕ} (fired : String) (hs : s < n) (ht : t < n) (hn : n ≤ Adjacency.mostRows) :
    G.tryLink s t fired = (none, G.link s t fired) := by
  have hword : Adjacency.mostRows < Adjacency.wordSize := by decide
  have hroom : Adjacency.room (max s t + 1) = .ok () := by
    rw [Adjacency.room, if_neg (by omega), if_neg (by omega)]
  rw [tryLink, hroom]

theorem Built.representation (h : Built G) :
    G.markings.Nodup ∧
    (∀ m i, G.find? m = some i ↔ ∃ M, G.vertices[i]? = some M ∧ M.marking = m) ∧
    (∀ i M N, G.vertices[i]? = some M → M.marking = N.marking → G.insert N = (i, false, G)) ∧
    (∀ N, N.marking ∉ G.markings → ∃ H, G.insert N = (G.vertices.size, true, H) ∧
      H.vertices = G.vertices.push N ∧ H.edges = G.edges ∧ ∀ v, H.outgoing v = G.outgoing v) ∧
    (∀ s t fired, (G.link s t fired).vertices = G.vertices ∧
      (G.link s t fired).edges = G.edges.push ⟨s, t, fired⟩ ∧
      (s < G.vertices.size → t < G.vertices.size → G.vertices.size ≤ Adjacency.mostRows →
        G.tryLink s t fired = (none, G.link s t fired))) ∧
    (∀ v, G.outgoing v = G.edgesFrom v) ∧
    (∀ v, G.successors v = (G.edgesFrom v).map Edge.target) ∧
    G.finals = (List.range G.vertices.size).filter fun v => G.edgesFrom v = [] := by
  have hG := h.consistent
  refine ⟨hG.nodup_markings, hG.find, fun i M N hi hM => hG.insert_of_mem hi hM, fun N hN => ?_,
    fun s t fired => ⟨rfl, rfl, tryLink_of_lt fired⟩, hG.outgoing_eq, hG.successors_eq, hG.finals_eq⟩
  obtain ⟨H, hinsert, hH, hvertices, hedges⟩ := hG.insert_of_notMem hN
  refine ⟨H, hinsert, hvertices, hedges, fun v => ?_⟩
  rw [hH.outgoing_eq, hG.outgoing_eq, edgesFrom, hedges, edgesFrom]

def lamp (light : UInt32) : Net where
  id := "lamp"
  marking := ⟨[⟨"light", light⟩], by simp⟩
  transitions := []
  arcs := []
  ascending := by simp
  disjoint := by simp
  joins := by simp

def switching : MarkingGraph :=
  (((ofNet (lamp 0)).insert (lamp 1)).2.2.link 0 1 "press").link 0 0 "wait"

theorem representation_switching : Built switching ∧ switching.insert (lamp 1) = (1, false, switching) ∧
    switching.outgoing 0 = [⟨0, 1, "press"⟩, ⟨0, 0, "wait"⟩] ∧ switching.finals = [1] := by
  have hlamps : Built ((ofNet (lamp 0)).insert (lamp 1)).2.2 := .insert (lamp 1) (.ofNet (lamp 0))
  have hbuilt : Built switching :=
    .link "wait" (.link "press" hlamps (by decide +kernel) (by decide +kernel)) (by decide +kernel) (by decide +kernel)
  obtain ⟨_, _, hknown, _, _, houtgoing, _, hfinals⟩ := hbuilt.representation
  refine ⟨hbuilt, hknown 1 (lamp 1) (lamp 1) (by decide +kernel) rfl, ?_, ?_⟩
  · rw [houtgoing]
    decide +kernel
  · rw [hfinals]
    decide +kernel

end Petri.MarkingGraph
