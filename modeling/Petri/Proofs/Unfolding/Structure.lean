import Mathlib
import Petri.Proofs.Unfolding.Names

/-! A net that can be explored can be unfolded. A transition has as many copies as some reachable marking lets it fire
at once, and each takes and gives what the transition does. -/

namespace Petri

namespace Unfolding

open MarkingGraph

variable {N U : Net} {G : MarkingGraph} {cs : List (Transition × String)} {t : Transition} {c : String} {budget : Budget}

lemma exists_unfolding_eq_ok (hG : explore budget N = .ok G) (hnodup : ((copies N G).map Prod.snd).Nodup)
    (hcopies : ∀ t c, (t, c) ∈ copies N G → t ∈ N.transitions ∧ c ∉ N.marking.ids) :
    ∃ U, N.unfolding budget = .ok U := by
  rw [unfolding_eq, hG]
  apply Net.exists_build_eq_ok
  · rw [map_id_unfoldedNodes, List.nodup_append]
    refine ⟨N.marking.nodup_ids, hnodup, ?_⟩
    rintro p hp c hc rfl
    obtain ⟨⟨t, c⟩, hx, rfl⟩ := List.mem_map.mp hc
    exact (hcopies t c hx).2 hp
  · rw [filterMap_place?_unfoldedNodes, N.marking.ofPlaces_places, filterMap_transition?_unfoldedNodes]
    intro a ha
    obtain ⟨⟨t, c⟩, hc, ha⟩ := List.mem_flatMap.mp ha
    have hmem : c ∈ (Sorted.ofListBy Transition.id ((copies N G).map fun c => rename c.1 c.2)).map Transition.id :=
      List.mem_map.mpr ⟨rename t c, (mem_ofListBy_rename hnodup).mpr ⟨t, c, hc, rfl⟩, rfl⟩
    rcases mem_copyArcs (hcopies t c hc).1 ha with ⟨hs, rfl⟩ | ⟨rfl, ht⟩
    · exact Or.inl ⟨hs, hmem⟩
    · exact Or.inr ⟨hmem, ht⟩

namespace IsUnfolding

lemma transitions_perm_map (h : IsUnfolding N cs U) : U.transitions.Perm (cs.map fun x => rename x.1 x.2) := by
  rw [List.perm_ext_iff_of_nodup (Sorted.nodup_of_ascending U.ascending) h.nodup_rename]
  intro u
  rw [h.mem_transitions, List.mem_map, Prod.exists]

end IsUnfolding

lemma exists_isGreatest_occurrences (hG : explore budget N = .ok G) (ht : t ∈ N.transitions)
    (hin : N.incoming t.id ≠ []) :
    ∃ k, IsGreatest {k | ∃ M, N.Reachable M ∧ ∀ p ∈ N.marking.ids,
      k * N.intake t.id p ≤ (M.marking.tokens p).toNat} k ∧ copyCount G t = max 1 k := by
  have hF := frontier_explore hG
  have hcount : ∀ k M, N.Reachable M → (k ≤ M.occurrences t.id ↔ ∀ p ∈ N.marking.ids,
      k * N.intake t.id p ≤ (M.marking.tokens p).toNat) := by
    intro k M hM
    have hinM : M.incoming t.id ≠ [] := by
      rwa [Ne, Net.incoming_eq_nil_iff, forall_congr' fun p => by rw [hM.intake_eq], ← Net.incoming_eq_nil_iff]
    rw [Net.le_occurrences_iff hinM, Net.forall_mem_ids_intake (P := fun p n => k * n ≤ (M.marking.tokens p).toNat)
      (fun _ => by simp) (List.mem_map_of_mem ht)]
    simp only [hM.intake_eq]
  obtain ⟨M, hM, hmax⟩ := Finset.exists_max_image G.vertices.toList.toFinset (fun M => M.occurrences t.id)
    ⟨N, List.mem_toFinset.mpr (hF.mem_vertices.mpr (.refl N))⟩
  simp only [List.mem_toFinset] at hM hmax
  have hMr := hF.mem_vertices.mp hM
  refine ⟨M.occurrences t.id, ⟨⟨M, hMr, (hcount _ M hMr).mp le_rfl⟩, ?_⟩, ?_⟩
  · rintro k ⟨K, hK, hk⟩
    exact ((hcount k K hK).mpr hk).trans (hmax K (hF.mem_vertices.mpr hK))
  · obtain ⟨hone, hle⟩ := copyCount_le_iff.mp (le_refl (copyCount G t))
    apply le_antisymm
    · exact copyCount_le_iff.mpr ⟨le_max_left 1 _, fun K hK => (hmax K hK).trans (le_max_right 1 _)⟩
    · exact max_le hone (hle M hM)

lemma copyCount_eq_one (hG : explore budget N = .ok G) (ht : t ∈ N.transitions) (hnil : N.incoming t.id = []) :
    copyCount G t = 1 := by
  have hle := count_copies_le_one (frontier_explore hG) ht (Net.incoming_eq_nil_iff.mp hnil)
  rw [count_copies ht] at hle
  exact le_antisymm hle (copyCount_le_iff.mp le_rfl).1

/-- What `U` is made of, when the copies of each transition after the first have the given numbers. -/
structure IsCopied (N : Net) (numbers : Transition → List ℕ) (U : Net) : Prop where
  marking : U.marking = N.marking
  transitions : U.transitions.Perm (N.transitions.flatMap fun t => (copyIds t (numbers t)).map (rename t))
  length : ∀ t ∈ N.transitions, N.incoming t.id ≠ [] →
    ∃ k, IsGreatest {k | ∃ M, N.Reachable M ∧ ∀ p ∈ N.marking.ids,
      k * N.intake t.id p ≤ (M.marking.tokens p).toNat} k ∧ (copyIds t (numbers t)).length = max 1 k
  length_of_nil : ∀ t ∈ N.transitions, N.incoming t.id = [] → (copyIds t (numbers t)).length = 1
  ascending : ∀ t ∈ N.transitions, (numbers t).Pairwise (· < ·)
  two_le : ∀ t ∈ N.transitions, ∀ s ∈ numbers t, 2 ≤ s
  lt : ∀ t ∈ N.transitions, ∀ s ∈ numbers t, s < (copyIds t (numbers t)).length + N.nodes.length
  small : (∀ t ∈ N.transitions, (copyIds t (numbers t)).length < 4294967296 - N.nodes.length) →
    ∀ t ∈ N.transitions, ∀ s ∈ numbers t, s < 4294967296
  notMem_nodes : ∀ t ∈ N.transitions, ∀ s ∈ numbers t, copyName t.id s ∉ N.nodes.map Node.id
  nodup : (N.transitions.flatMap fun t => copyIds t (numbers t)).Nodup
  intake : ∀ t ∈ N.transitions, ∀ c ∈ copyIds t (numbers t), ∀ p, U.intake c p = N.intake t.id p
  output : ∀ t ∈ N.transitions, ∀ c ∈ copyIds t (numbers t), ∀ p, U.output c p = N.output t.id p
  consumption : ∀ t ∈ N.transitions, ∀ c ∈ copyIds t (numbers t), U.consumption c = N.consumption t.id
  production : ∀ t ∈ N.transitions, ∀ c ∈ copyIds t (numbers t), U.production c = N.production t.id

theorem exists_unfolding_isCopied (hG : explore budget N = .ok G) :
    ∃ U numbers, N.unfolding budget = .ok U ∧ IsCopied N numbers U := by
  obtain ⟨numbers, hcopies, hnumbered, hlength⟩ := exists_copies_eq N G
  have hmem : ∀ t c, (t, c) ∈ copies N G ↔ t ∈ N.transitions ∧ c ∈ copyIds t (numbers t) := by
    intro t c
    simp [hcopies]
  have hnames : (copies N G).map Prod.snd = N.transitions.flatMap fun t => copyIds t (numbers t) := by
    simp [hcopies, List.map_flatMap, Function.comp_def]
  obtain ⟨U, hU⟩ := exists_unfolding_eq_ok hG (hnames ▸ hnumbered.nodup_flatMap) fun t c hc =>
    ⟨((hmem t c).mp hc).1, hnumbered.notMem_places ((hmem t c).mp hc).1 ((hmem t c).mp hc).2⟩
  obtain ⟨G', hG', hunfolding⟩ := unfolding_ok hU
  obtain rfl : G = G' := Except.ok.inj (hG.symm.trans hG')
  have hlt : ∀ t ∈ N.transitions, ∀ s ∈ numbers t, s < (copyIds t (numbers t)).length + N.nodes.length := by
    intro t ht s hs
    have hlt := (hnumbered t ht).lt (id_mem_node_ids ht) hs
    rw [List.length_map] at hlt
    simpa [copyIds] using hlt
  refine ⟨U, numbers, hU, {
    marking := hunfolding.marking
    transitions := ?_
    length := fun t ht hin => hlength t ht ▸ exists_isGreatest_occurrences hG ht hin
    length_of_nil := fun t ht hnil => (hlength t ht).trans (copyCount_eq_one hG ht hnil)
    ascending := fun t ht => (hnumbered t ht).ascending
    two_le := fun t ht => (hnumbered t ht).gt
    lt := hlt
    small := fun hfew t ht s hs => (hlt t ht s hs).trans (Nat.add_lt_of_lt_sub (hfew t ht))
    notMem_nodes := fun t ht => (hnumbered t ht).free
    nodup := hnumbered.nodup_flatMap
    intake := fun t ht c hc _ => hunfolding.intake_copy ((hmem t c).mpr ⟨ht, hc⟩)
    output := fun t ht c hc _ => hunfolding.output_copy ((hmem t c).mpr ⟨ht, hc⟩)
    consumption := fun t ht c hc => hunfolding.consumption_copy ((hmem t c).mpr ⟨ht, hc⟩)
    production := fun t ht c hc => hunfolding.production_copy ((hmem t c).mpr ⟨ht, hc⟩) }⟩
  have hperm := hunfolding.transitions_perm_map
  rw [hcopies, List.map_flatMap] at hperm
  simpa [Function.comp_def] using hperm

/-- One transition is called like the second copy of the other. -/
def lookalike : Net where
  id := "lookalike"
  marking := ⟨[⟨"done", 0⟩, ⟨"pool", 3⟩, ⟨"rest", 2⟩], by decide⟩
  transitions := [⟨"t", none⟩, ⟨"t#2", some { kind := .app, read := some "data" }⟩]
  arcs := [⟨"pool", "t"⟩, ⟨"t", "done"⟩, ⟨"rest", "t#2"⟩, ⟨"t#2", "done"⟩]
  ascending := by decide
  disjoint := by decide
  joins := by simp [Arc.Joins, Marking.ids]

theorem exists_unfolding_isCopied_lookalike : ∃ G U numbers, explore {} lookalike = .ok G ∧
    lookalike.unfolding {} = .ok U ∧ IsCopied lookalike numbers U ∧
    U.transitions.map Transition.id = ["t", "t#2", "t#2#2", "t#3", "t#4"] := by
  obtain ⟨G, hG⟩ := exists_eq_ok (x := explore {} lookalike) (by decide +kernel)
  obtain ⟨U, numbers, hU, hcopied⟩ := exists_unfolding_isCopied hG
  have hids : (lookalike.unfolding {}).toOption.map (fun U => U.transitions.map Transition.id) =
      some ["t", "t#2", "t#2#2", "t#3", "t#4"] := by decide +kernel
  rw [hU] at hids
  exact ⟨G, U, numbers, hG, hU, hcopied, Option.some.inj hids⟩

end Unfolding

end Petri
