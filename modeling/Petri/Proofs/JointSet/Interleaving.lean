import Mathlib
import Petri.Proofs.JointSet.Maximal
import Petri.Proofs.MarkingEquation
import Petri.Proofs.MarkingGraph.Exploration

/-! The transitions of a joint set can be fired one after the other, in any order. No place overflows, since every
marking on the way has been explored. -/

namespace Petri.JointSet

open MarkingGraph

variable {N M : Net} {G : MarkingGraph} {s : JointSet} {ts : List String} {p : String}

lemma taken_ids (N : Net) (s : JointSet) (p : String) : N.taken s.ids p = N.load s p := by
  simp [Net.taken, Net.load, ids, Function.comp_def]

lemma exists_fire (hG : Frontier N G.vertices.size [] G) (hM : N.Reachable M) {t : String}
    (ht : t ∈ N.transitions.map Transition.id) (hfits : ∀ p, N.intake t p ≤ (M.marking.tokens p).toNat) :
    ∃ K, M.fire t = .ok K ∧ N.Reachable K := by
  have henabled : M.isEnabled t = true := by
    apply Net.isEnabled_iff.mpr
    simp only [hM.transitions_eq, hM.intake_eq]
    exact ⟨ht, hfits⟩
  obtain ⟨i, hi⟩ := hG.complete hM
  obtain ⟨j, K, _, _, hK⟩ := hG.mem_order hi henabled
  exact ⟨K, hK, hM.tail hK⟩

lemma exists_run (hG : Frontier N G.vertices.size [] G) (hM : N.Reachable M)
    (hts : ∀ t ∈ ts, t ∈ N.transitions.map Transition.id)
    (hfits : ∀ p, N.taken ts p ≤ (M.marking.tokens p).toNat) : ∃ K, M.run ts = .ok K ∧ N.Reachable K := by
  induction ts generalizing M with
  | nil => exact ⟨M, rfl, hM⟩
  | cons t ts ih =>
    obtain ⟨ht, hts⟩ := List.forall_mem_cons.mp hts
    simp only [Net.taken_cons] at hfits
    obtain ⟨L, hL, hreach⟩ := exists_fire hG hM ht fun p => le_trans (Nat.le_add_right _ _) (hfits p)
    have hrest : ∀ p, N.taken ts p ≤ (L.marking.tokens p).toNat := by
      intro p
      have hp := hfits p
      have htokens := Net.tokens_fire hL p
      rw [hM.intake_eq] at htokens
      omega
    obtain ⟨K, hK, hreachK⟩ := ih hreach hts hrest
    exact ⟨K, Net.run_cons.mpr ⟨L, hL, hK⟩, hreachK⟩

theorem run_perm_of_mem_ofGraph {budget : Budget} (hG : explore budget N = .ok G) (hs : s ∈ ofGraph G) :
    ∃ M ∈ G.vertices.toList, ∃ K ∈ G.vertices.toList, ∀ ts : List String, ts.Perm s.ids → M.run ts = .ok K := by
  have hF := frontier_explore hG
  obtain ⟨M, hM, hs⟩ := List.mem_flatMap.mp (mem_of_mem_distinct hs)
  have hreach := hF.mem_vertices.mp hM
  have hjoint := (isJoint_of_mem_ofNet hs).1
  have hrun : ∀ ts : List String, ts.Perm s.ids → ∃ K, M.run ts = .ok K ∧ N.Reachable K := by
    intro ts hts
    apply exists_run hF hreach
    · intro t ht
      obtain ⟨u, hu, rfl⟩ := List.mem_map.mp (hts.mem_iff.mp ht)
      exact List.mem_map_of_mem (hreach.transitions_eq ▸ hjoint.subset hu)
    · intro p
      rw [← hreach.taken_eq, Net.taken_perm hts, taken_ids]
      exact hjoint.fits p
  obtain ⟨K, hK, hreachK⟩ := hrun s.ids (List.Perm.refl _)
  refine ⟨M, hM, K, hF.mem_vertices.mpr hreachK, ?_⟩
  intro ts hts
  obtain ⟨L, hL, _⟩ := hrun ts hts
  rw [hL, Net.run_eq_of_perm hL hK hts]

def meeting : Net where
  id := "meeting"
  marking := ⟨[⟨"left", 1⟩, ⟨"middle", 0⟩, ⟨"right", 1⟩], by decide⟩
  transitions := [⟨"back", none⟩, ⟨"forth", none⟩]
  arcs := [⟨"left", "forth"⟩, ⟨"forth", "middle"⟩, ⟨"right", "back"⟩, ⟨"back", "middle"⟩]
  ascending := by decide
  disjoint := by decide
  joins := by simp [Arc.Joins, Marking.ids]

theorem run_perm_of_mem_ofGraph_meeting : ∃ G s, explore {} meeting = .ok G ∧ s ∈ ofGraph G ∧
    s.ids = ["back", "forth"] ∧ ∃ M ∈ G.vertices.toList, ∃ K ∈ G.vertices.toList, K.marking ≠ M.marking ∧
      ∀ ts : List String, ts.Perm s.ids → M.run ts = .ok K := by
  have hsets : (explore {} meeting).toOption.any (fun G => (ofGraph G).any (·.ids = ["back", "forth"])) = true := by
    decide +kernel
  have hmoves : (explore {} meeting).toOption.all (fun G => G.vertices.toList.all fun M =>
      (M.run ["back", "forth"]).toOption.all (·.marking ≠ M.marking)) = true := by decide +kernel
  obtain ⟨G, hG⟩ := exists_eq_ok (x := explore {} meeting) (by decide +kernel)
  rw [hG] at hsets hmoves
  obtain ⟨s, hs, hids⟩ := List.any_eq_true.mp hsets
  replace hids : s.ids = ["back", "forth"] := by simpa using hids
  obtain ⟨M, hM, K, hK, hrun⟩ := run_perm_of_mem_ofGraph hG hs
  have hmove := List.all_eq_true.mp hmoves M hM
  rw [hrun _ (hids ▸ List.Perm.refl _)] at hmove
  exact ⟨G, s, hG, hs, hids, M, hM, K, hK, of_decide_eq_true hmove, hrun⟩

end Petri.JointSet
