import Mathlib
import Petri.Proofs.MarkingGraph.BreadthFirst
import Petri.Proofs.Path.Enumeration

/-! The marking paths of an explored net go along every edge and through every vertex. -/

namespace Petri

open Relation

lemma exists_simple_path {α : Type} {r : α → α → Prop} {a b : α} (h : ReflTransGen r a b) :
    ∃ before, (before ++ [b]).head? = some a ∧ (before ++ [b]).IsChain r ∧ (before ++ [b]).Nodup := by
  induction h with
  | refl => exact ⟨[], rfl, List.isChain_singleton a, List.nodup_singleton a⟩
  | @tail b c _ hbc ih =>
    obtain ⟨before, hhead, hchain, hnodup⟩ := ih
    by_cases hc : c ∈ before ++ [b]
    · -- the path has been to `c` before, so what follows is left out
      obtain ⟨start, rest, hsplit⟩ := List.append_of_mem hc
      have hstart : start ++ [c] <+: before ++ [b] := ⟨rest, by simp [hsplit]⟩
      refine ⟨start, ?_, List.IsChain.infix hchain hstart.isInfix, hnodup.sublist hstart.sublist⟩
      rw [← hhead, hsplit]
      cases start <;> rfl
    · refine ⟨before ++ [b], ?_, ?_, ?_⟩
      · rw [List.head?_append, hhead, Option.some_or]
      · rw [List.append_assoc, List.singleton_append]
        exact List.isChain_append_cons_cons.mpr ⟨hchain, hbc, List.isChain_singleton c⟩
      · exact List.nodup_append.mpr ⟨hnodup, List.nodup_singleton c, by grind⟩

namespace MarkingGraph

variable {G : MarkingGraph} {N : Net} {budget : Budget} {v w : ℕ}

lemma path_of_explore (hok : explore budget N = .ok G) (hw : w < G.vertices.size) : ReflTransGen G.Leads 0 w := by
  have hd := discovery_explore hok
  induction w using Nat.strong_induction_on with
  | _ w ih =>
    rcases Nat.eq_zero_or_pos w with rfl | hpos
    · exact .refl
    · obtain ⟨e, he, hlt⟩ := hd.found w hpos hw
      have htarget : e.target = w := by simpa [leadsTo] using List.find?_some he
      exact (ih e.source hlt (hlt.trans hw)).tail ⟨e, List.mem_of_find?_eq_some he, rfl, htarget⟩

lemma lt_size_of_leads (hok : explore budget N = .ok G) (h : G.Leads v w) :
    v < G.vertices.size ∧ w < G.vertices.size := by
  obtain ⟨e, he, rfl, rfl⟩ := h
  obtain ⟨M, K, hM, hK, _⟩ := (frontier_explore hok).sound e he
  exact ⟨(Array.getElem?_eq_some_iff.mp hM).1, (Array.getElem?_eq_some_iff.mp hK).1⟩

end MarkingGraph

namespace PathSet

open MarkingGraph

variable {G : MarkingGraph} {N : Net} {P : PathSet} {budget budget' : Budget} {p : List ℕ} {v w : ℕ}

lemma exists_mem_markingPaths (h : G.Tracked) (hhead : p.head? = some 0) (hnodup : p.dropLast.Nodup)
    (hp : p.IsChain G.Leads) : ∃ q ∈ (all G).markingPaths, p <+: q := by
  have hne : p ≠ [] := by
    rintro rfl
    cases hhead
  have hchain : p.IsChain fun a b => b ∈ onward G a :=
    hp.imp fun a b hab => Sorted.mem_ofList.mpr (h.mem_successors.mpr hab)
  have hmem : ∀ a ∈ p, a ∈ List.range G.adjacency.size := by
    apply hchain.induction (· ∈ List.range G.adjacency.size) p fun a b hab ha => (spans_onward h).closed a ha b hab
    intro _
    rw [(List.head_eq_iff_head?_eq_some hne).mpr hhead]
    exact zero_mem_range h
  obtain ⟨q, hpq, hmax⟩ := Trail.exists_isMaximal_of_dropLast List.nodup_range (spans_onward h).closed hne hnodup hchain hmem
  refine ⟨q, (Trail.mem_paths_start List.nodup_range (spans_onward h).closed (zero_mem_range h)).mpr ⟨?_, hmax⟩, hpq⟩
  obtain ⟨rest, rfl⟩ := hpq
  rw [List.head?_append, hhead, Option.some_or]

lemma exists_path_along (h : G.Tracked) (hv : ReflTransGen G.Leads 0 v) (hvw : G.Leads v w) :
    ∃ q ∈ (all G).markingPaths, [v, w] <:+: q := by
  obtain ⟨before, hhead, hchain, hnodup⟩ := exists_simple_path hv
  have hsteps : (before ++ [v] ++ [w]).IsChain G.Leads := by
    rw [List.append_assoc, List.singleton_append]
    exact List.isChain_append_cons_cons.mpr ⟨hchain, hvw, List.isChain_singleton w⟩
  obtain ⟨q, hq, hstart⟩ := exists_mem_markingPaths h (by rw [List.head?_append, hhead, Option.some_or])
    (by rwa [List.dropLast_concat]) hsteps
  have hlast : [v, w] <:+: before ++ [v] ++ [w] := ⟨before, [], by simp⟩
  exact ⟨q, hq, hlast.trans hstart.isInfix⟩

lemma exists_path_through (h : G.Tracked) (hv : ReflTransGen G.Leads 0 v) : ∃ q ∈ (all G).markingPaths, v ∈ q := by
  obtain ⟨before, hhead, hchain, hnodup⟩ := exists_simple_path hv
  obtain ⟨q, hq, hstart⟩ := exists_mem_markingPaths h hhead (hnodup.sublist (List.dropLast_sublist _)) hchain
  exact ⟨q, hq, hstart.subset (by simp)⟩

theorem markingPaths_cover (hG : explore budget N = .ok G) (hP : ofGraph budget' G = .ok P) :
    (∀ v w, (∃ p ∈ P.markingPaths, [v, w] <:+: p) ↔ ∃ e ∈ G.edges.toList, e.source = v ∧ e.target = w) ∧
    ∀ v, (∃ p ∈ P.markingPaths, v ∈ p) ↔ v < G.vertices.size := by
  obtain rfl := eq_all_of_ofGraph hP
  have h := (edited_explore hG).tracked
  refine ⟨fun v w => ⟨?_, fun hvw => ?_⟩, fun v => ⟨?_, fun hv => exists_path_through h (path_of_explore hG hv)⟩⟩
  · rintro ⟨p, hp, hpair⟩
    have hchain := List.IsChain.infix ((mem_markingPaths h).mp hp).2.chain hpair
    exact List.isChain_pair.mp hchain
  · exact exists_path_along h (path_of_explore hG (lt_size_of_leads hG hvw).1) hvw
  · rintro ⟨p, hp, hv⟩
    obtain ⟨hhead, htruncated⟩ := (mem_markingPaths h).mp hp
    refine htruncated.chain.induction (· < G.vertices.size) p (fun a b hab _ => (lt_size_of_leads hG hab).2) ?_ v hv
    intro hne
    rw [(List.head_eq_iff_head?_eq_some hne).mpr hhead]
    exact G.nonempty

theorem markingPaths_cover_roundabout : ∃ G P, explore {} roundabout = .ok G ∧ ofGraph {} G = .ok P ∧
    P.markingPaths = [[0, 1, 3, 0], [0, 2, 3, 0]] ∧ (∃ p ∈ P.markingPaths, [3, 0] <:+: p) ∧
    (∃ e ∈ G.edges.toList, e.source = 2 ∧ e.target = 3) ∧ ∀ v, (∃ p ∈ P.markingPaths, v ∈ p) ↔ v < G.vertices.size := by
  obtain ⟨G, hG⟩ := exists_eq_ok (x := explore {} roundabout) (by decide +kernel)
  obtain ⟨P, hP⟩ := exists_eq_ok (x := ofGraph {} G) (by rw [ofGraph_eq]; rfl)
  have hpaths : (explore {} roundabout >>= ofGraph {}).toOption.map (fun P => P.markingPaths) =
      some [[0, 1, 3, 0], [0, 2, 3, 0]] := by decide +kernel
  have hedges : (explore {} roundabout).toOption.map (fun G => G.edges.toList) =
      some [⟨0, 1, "a"⟩, ⟨0, 2, "b"⟩, ⟨1, 3, "c"⟩, ⟨2, 3, "d"⟩, ⟨3, 0, "e"⟩] := by decide +kernel
  rw [bind_eq_ok.mpr ⟨G, hG, hP⟩] at hpaths
  rw [hG] at hedges
  replace hpaths : P.markingPaths = _ := Option.some.inj hpaths
  replace hedges : G.edges.toList = _ := Option.some.inj hedges
  obtain ⟨hpairs, hvertices⟩ := markingPaths_cover hG hP
  refine ⟨G, P, hG, hP, hpaths, (hpairs 3 0).mpr ?_, (hpairs 2 3).mp ?_, hvertices⟩
  · rw [hedges]
    exact ⟨⟨3, 0, "e"⟩, by simp, rfl, rfl⟩
  · rw [hpaths]
    exact ⟨[0, 2, 3, 0], by simp, ⟨[0], [0], rfl⟩⟩

end PathSet

end Petri
