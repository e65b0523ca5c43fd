import Mathlib
import Petri.Proofs.MarkingGraph.Reach

/-! Whether every vertex leads to a condition. Numbers without a vertex count too, so an edge from such a number can tip
the verdict either way; where every edge leaves a vertex, it is right. -/

namespace Petri

open Relation

namespace MarkingGraph

variable {G : MarkingGraph} {condition : Net → Bool} {v : ℕ}

def Attains (G : MarkingGraph) (condition : Net → Bool) (v : ℕ) : Prop :=
  ∃ j M, G.vertices[j]? = some M ∧ condition M = true ∧ ReflTransGen G.Leads v j

/-- The numbers without a vertex that lead to the condition. -/
def strays (G : MarkingGraph) (condition : Net → Bool) : Set ℕ :=
  {v | G.vertices.size ≤ v ∧ G.Attains condition v}

/-- The vertices that do not lead to the condition. -/
def stuck (G : MarkingGraph) (condition : Net → Bool) : Set ℕ :=
  {v | v < G.vertices.size ∧ ¬ G.Attains condition v}

lemma attains_iff : G.Attains condition v ↔ ∃ j ∈ G.satisfying condition, ReflTransGen G.Leads v j := by
  simp only [Attains, mem_satisfying, ← exists_and_right, and_assoc]

lemma stuck_eq_empty_iff : G.stuck condition = ∅ ↔ ∀ v < G.vertices.size, G.Attains condition v := by
  rw [stuck, Set.eq_empty_iff_forall_notMem]
  refine forall_congr' fun v => ?_
  exact not_and_not_right

lemma attains_of_forall (hall : ∀ M ∈ G.vertices, condition M = true) : ∀ v < G.vertices.size, G.Attains condition v :=
  fun v hv => ⟨v, G.vertices[v], Array.getElem?_eq_getElem hv, hall _ (Array.getElem_mem hv), .refl⟩

lemma Tracked.mem_leadingTo_satisfying (h : G.Tracked) :
    v ∈ G.leadingTo G.adjacency.reverse (G.satisfying condition) ↔ G.Attains condition v := by
  rw [attains_iff]
  exact h.mem_leadingTo fun j hj => (lt_size_of_mem_satisfying hj).trans_le h.vertices_le

lemma nodup_leadingTo (reversed : Adjacency ℕ) (goals : List ℕ) : (G.leadingTo reversed goals).Nodup :=
  List.nodup_range.filter _

lemma Tracked.length_leadingTo_eq_iff (h : G.Tracked) :
    (G.leadingTo G.adjacency.reverse (G.satisfying condition)).length = G.vertices.size ↔
      (G.strays condition).encard = (G.stuck condition).encard := by
  let leading := (G.leadingTo G.adjacency.reverse (G.satisfying condition)).toFinset
  have hcard : leading.card = (G.leadingTo G.adjacency.reverse (G.satisfying condition)).length :=
    List.toFinset_card_of_nodup (nodup_leadingTo _ _)
  have hmem : ∀ v, v ∈ leading ↔ G.Attains condition v := fun v =>
    List.mem_toFinset.trans h.mem_leadingTo_satisfying
  have hstrays : G.strays condition = ↑(leading \ Finset.range G.vertices.size) := by
    ext v
    simp [strays, hmem, and_comm]
  have hstuck : G.stuck condition = ↑(Finset.range G.vertices.size \ leading) := by
    ext v
    simp [stuck, hmem]
  rw [hstrays, hstuck, Set.encard_coe_eq_coe_finsetCard, Set.encard_coe_eq_coe_finsetCard, Nat.cast_inj,
    Finset.card_sdiff_eq_card_sdiff_iff, hcard, Finset.card_range]

lemma Tracked.alwaysReaches_iff (h : G.Tracked) : G.alwaysReaches condition = true ↔
    (∀ M ∈ G.vertices, condition M = true) ∨ (G.strays condition).encard = (G.stuck condition).encard := by
  rw [alwaysReaches, decide_eq_true_eq, reaches]
  split
  · next hall => exact iff_of_true hall (Or.inl (length_satisfying_eq_iff.mp hall))
  · next hsome =>
    rw [h.length_leadingTo_eq_iff, or_iff_right (fun hall => hsome (length_satisfying_eq_iff.mpr hall))]

lemma strays_eq_empty (h : ∀ e ∈ G.edges.toList, e.source < G.vertices.size) : G.strays condition = ∅ := by
  apply Set.eq_empty_of_forall_notMem
  rintro v ⟨hv, j, M, hj, _, hpath⟩
  rcases hpath.cases_head with rfl | ⟨_, ⟨e, he, rfl, _⟩, _⟩
  · exact absurd (Array.getElem?_eq_some_iff.mp hj).1 hv.not_gt
  · exact absurd (h e he) hv.not_gt

lemma Tracked.alwaysReaches_iff_of_strays (h : G.Tracked) (hstrays : G.strays condition = ∅) :
    G.alwaysReaches condition = true ↔ ∀ v < G.vertices.size, G.Attains condition v := by
  rw [h.alwaysReaches_iff, hstrays, Set.encard_empty, eq_comm, Set.encard_eq_zero, stuck_eq_empty_iff]
  exact or_iff_right_of_imp attains_of_forall

lemma Tracked.misjudged_iff (h : G.Tracked) :
    ¬ (G.alwaysReaches condition = true ↔ ∀ v < G.vertices.size, G.Attains condition v) ↔
      ¬ (∀ M ∈ G.vertices, condition M = true) ∧ (G.strays condition).Nonempty ∧
        (G.stuck condition = ∅ ∨ (G.strays condition).encard = (G.stuck condition).encard) := by
  by_cases hall : ∀ M ∈ G.vertices, condition M = true
  · have hright := iff_of_true (h.alwaysReaches_iff.mpr (Or.inl hall)) (attains_of_forall hall)
    exact iff_of_false (not_not_intro hright) fun hwrong => hwrong.1 hall
  · rcases (G.strays condition).eq_empty_or_nonempty with hstrays | hstrays
    · simp [h.alwaysReaches_iff_of_strays hstrays, hstrays]
    · rw [h.alwaysReaches_iff, or_iff_right hall, ← stuck_eq_empty_iff]
      have hne : G.stuck condition = ∅ → (G.strays condition).encard ≠ (G.stuck condition).encard := by
        intro hstuck heq
        rw [hstuck, Set.encard_empty, Set.encard_eq_zero] at heq
        exact hstrays.ne_empty heq
      tauto

end MarkingGraph

namespace Inquiry

open MarkingGraph

variable {Q : Inquiry}

lemma Edited.alwaysReaches_eq (h : Q.Edited) (condition : Net → Bool) :
    (Q.alwaysReaches condition).1 = Q.graph.alwaysReaches condition := by
  rw [alwaysReaches, MarkingGraph.alwaysReaches, ← h.current.reaches_eq]

theorem alwaysReaches_verdict (h : Q.Edited) (condition : Net → Bool) :
    ((Q.alwaysReaches condition).1 = true ↔ (∀ M ∈ Q.graph.vertices, condition M = true) ∨
      (Q.graph.strays condition).encard = (Q.graph.stuck condition).encard) ∧
    (¬ ((Q.alwaysReaches condition).1 = true ↔ ∀ v < Q.graph.vertices.size, Q.graph.Attains condition v) ↔
      ¬ (∀ M ∈ Q.graph.vertices, condition M = true) ∧ (Q.graph.strays condition).Nonempty ∧
        (Q.graph.stuck condition = ∅ ∨ (Q.graph.strays condition).encard = (Q.graph.stuck condition).encard)) ∧
    ((∀ e ∈ Q.graph.edges.toList, e.source < Q.graph.vertices.size) →
      ((Q.alwaysReaches condition).1 = true ↔ ∀ v < Q.graph.vertices.size, Q.graph.Attains condition v)) := by
  have hG := h.graph.tracked
  rw [h.alwaysReaches_eq]
  exact ⟨hG.alwaysReaches_iff, hG.misjudged_iff, fun hedges => hG.alwaysReaches_iff_of_strays (strays_eq_empty hedges)⟩

def glimmer : Inquiry :=
  lamps.link 7 1 "glow"

lemma edited_lamps : lamps.Edited :=
  .insert (lamp 1) (.ofNet (lamp 0))

lemma edited_glimmer : glimmer.Edited :=
  .link 7 1 "glow" edited_lamps

theorem alwaysReaches_verdict_lamps : (lamps.link 0 1 "press").Edited ∧
    (∀ e ∈ (lamps.link 0 1 "press").graph.edges.toList, e.source < (lamps.link 0 1 "press").graph.vertices.size) ∧
    (∀ v < (lamps.link 0 1 "press").graph.vertices.size, (lamps.link 0 1 "press").graph.Attains isLit v) ∧
    glimmer.Edited ∧ (glimmer.graph.strays isLit).encard = (glimmer.graph.stuck isLit).encard := by
  have hpressed : (lamps.link 0 1 "press").Edited := .link 0 1 "press" edited_lamps
  have hsources : ∀ e ∈ (lamps.link 0 1 "press").graph.edges.toList,
      e.source < (lamps.link 0 1 "press").graph.vertices.size := by decide +kernel
  have hcounts := (alwaysReaches_verdict edited_glimmer isLit).1.mp (by decide +kernel)
  refine ⟨hpressed, hsources, ?_, edited_glimmer, hcounts.resolve_left (by decide +kernel)⟩
  exact ((alwaysReaches_verdict hpressed isLit).2.2 hsources).mp (by decide +kernel)

/-- The dark lamp leads nowhere and the verdict is that all lead to the light; both lead there and it is that they do not. -/
theorem alwaysReaches_counts_strays :
    (glimmer.Edited ∧ (glimmer.alwaysReaches isLit).1 = true ∧
      ¬ ∀ v < glimmer.graph.vertices.size, glimmer.graph.Attains isLit v) ∧
    ((glimmer.link 0 1 "press").Edited ∧ ((glimmer.link 0 1 "press").alwaysReaches isLit).1 = false ∧
      ∀ v < (glimmer.link 0 1 "press").graph.vertices.size, (glimmer.link 0 1 "press").graph.Attains isLit v) := by
  have hpressed : (glimmer.link 0 1 "press").Edited := .link 0 1 "press" edited_glimmer
  refine ⟨⟨edited_glimmer, by decide +kernel, fun hall => ?_⟩, hpressed, by decide +kernel, fun v hv => ?_⟩
  · have hdark := edited_glimmer.graph.tracked.mem_leadingTo_satisfying.mpr (hall 0 (by decide +kernel))
    revert hdark
    decide +kernel
  · apply hpressed.graph.tracked.mem_leadingTo_satisfying.mp
    revert v
    decide +kernel

end Inquiry

end Petri
